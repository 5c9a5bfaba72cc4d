import ScriptRefactor.Grammar.TypeExpression

/-!
# `ScriptRefactor.Grammar.Markup`: elements inside expressions

An element has a name and attributes in angle brackets; between its
two tags stand text, expressions in braces and further elements. The
tags of a fragment have no name. That the closing tag repeats the
name of the opening one is not demanded.

White space with the end of a line in it is no text, unless other
characters stand beside it.
-/

set_option autoImplicit false

namespace ScriptRefactor.Grammar

open Syntax

/-- The characters that end a run of text in markup. -/
def endsMarkupText (c : Char) : Bool := ['<', '>', '\x7b', '\x7d', '&'].contains c

/-- The run holds something other than ends of lines and the white
space behind them. -/
def isMarkupText : Bool → List Char → Bool
  | _, [] => false
  | atLine, c :: cs =>
    if c = '\n' then isMarkupText true cs
    else if atLine && Text.isSpace c then isMarkupText true cs
    else true

namespace Parser

/-- A word of markup, which may hold dashes. -/
def markupWord (c : Construct) : Parser Node := do
  skipBlanks
  let cs ← remaining
  require (cs.head?.any isNameStart)
  leaf (.construct c) (cs.takeWhile fun c => isNameChar c || c = '-')

/-- Two words of markup with a colon between them, or one. -/
def markupName (c : Construct) : Parser Node := do
  let first ← markupWord c
  if ← isMark ":" then
    let colon ← mark ":"
    return Node.branch .jsxNamespaceName
      [first.becomes .identifier, colon, ← markupWord .identifier]
  return first

/-- The name of an element: a word, two words, or accesses. -/
def elementName : Parser Node := do
  let first ← markupName .identifier
  grow (fun node => do
    if ← isMark "." then
      let dot ← mark "."
      return some (Node.branch .memberExpression [node, dot, ← markupWord .propertyIdentifier])
    else return none) first

/-- Something in braces: an expression, a spread, or only comments. -/
def markupExpression (rules : Rules) : Parser Node := do
  let inside : Parser (List Node) := do
    if ← isMark "\x7d" then return []
    if ← isMark "..." then
      let dots ← mark "..."
      return [Node.branch .spreadElement [dots, ← rules .expression]]
    return [← rules .expressions]
  return Node.branch .jsxExpression (← bracketed "\x7b" "\x7d" inside)

/-- The value of an attribute. -/
def attributeValue (rules : Rules) : Parser Node := do
  match ← ahead with
  | .mark m =>
    if m = "\x7b" then markupExpression rules
    else if m = "\"" || m = "'" then markupString
    else rules .markup
  | _ => refuse

/-- An attribute of an element. -/
def elementAttribute (rules : Rules) : Parser Node := do
  if ← isMark "\x7b" then return ← markupExpression rules
  let own ← markupName .propertyIdentifier
  if ← isMark "=" then
    let equals ← mark "="
    return Node.branch .jsxAttribute [own, equals, ← attributeValue rules]
  return Node.branch .jsxAttribute [own]

/-- The text is in front of the reader, blanks aside. -/
def isText (text : List Char) : Parser Bool := fun _ r =>
  .ok (Text.startsWith text r.skip.rest, r)

/-- Reads the given characters as one token. -/
def tokenText (text : List Char) : Parser Node := do
  require (← isText text)
  skipBlanks
  token text

/-- What an opening tag holds: its name and its attributes. -/
def tagInside (rules : Rules) : Parser (List Node) := do
  let own ← elementName
  let arguments ← do
    if (← typed) && (← isChar '<') then pure [← typeArguments rules] else pure []
  let attributes ← collect do
    if (← isChar '>') || (← isText ['/', '>']) then return none
    return some [← elementAttribute rules]
  return own.inRole .name :: arguments ++ attributes

/-- The end of an element: a closing tag. -/
def closingTag : Parser Node := do
  let opening ← tokenText ['<', '/']
  let own ← do if ← isChar '>' then pure [] else pure [(← elementName).inRole .name]
  return Node.branch .jsxClosingElement (opening :: own ++ [← char '>'])

/-- One child of an element; nothing if the closing tag comes
next. White space that is no text is passed. -/
def markupChild (rules : Rules) : Parser (Option (List Node)) := do
  let rest ← remaining
  let run := rest.takeWhile fun c => !(endsMarkupText c)
  if isMarkupText false run then return some [← leaf (.construct .jsxText) run]
  match rest.drop run.length with
  | '<' :: '/' :: _ => return none
  | '<' :: _ => return some [← rules .markup]
  | '\x7b' :: _ => return some [← markupExpression rules]
  | cs =>
    match reference? cs with
    | some text => skipBlanks; return some [← leaf (.construct .htmlCharacterReference) text]
    | none => refuse

/-- An element or a fragment. -/
def markup (rules : Rules) : Parser Node := do
  let opening ← char '<'
  let inside ← do if ← isChar '>' then pure [] else enclosed (tagInside rules)
  if ← isText ['/', '>'] then
    require (!inside.isEmpty)
    return Node.branch .jsxSelfClosingElement (opening :: inside ++ [← tokenText ['/', '>']])
  let tag := Node.branch .jsxOpeningElement (opening :: inside ++ [← char '>'])
  let children ← enclosed (collect (markupChild rules))
  return Node.branch .jsxElement (tag :: children ++ [← closingTag])

end Parser

end ScriptRefactor.Grammar
