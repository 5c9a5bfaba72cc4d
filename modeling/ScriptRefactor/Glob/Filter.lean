import ScriptRefactor.Glob.Pattern

/-!
# `ScriptRefactor.Glob.Filter`: which paths a listing shows

A filter has globs for the paths to show and globs for those to hide.
A path that is hidden is never shown; without globs to show, all
others are.
-/

set_option autoImplicit false

namespace ScriptRefactor

/-- A glob that cannot be read. -/
structure InvalidGlob where
  /-- The text of the glob. -/
  text : String
  /-- What is wrong with it. -/
  fault : GlobFault
deriving DecidableEq, Repr

/-- The wording of the failure. -/
def InvalidGlob.message (e : InvalidGlob) : String :=
  e.text ++ ": error parsing glob '" ++ e.text ++ "': " ++ e.fault.message

/-- Which paths a listing shows. -/
structure PathFilter where
  /-- Globs of the paths to show, if not all are shown. -/
  shown? : Option (List Glob)
  /-- Globs of the paths to hide. -/
  hidden : List Glob
deriving Repr

namespace PathFilter

/-- A filter that shows every path. -/
def showAll : PathFilter := ⟨none, []⟩

/-- The globs of a list of texts. -/
def globs (texts : List String) : Except InvalidGlob (List Glob) :=
  texts.mapM fun text =>
    match Glob.parse text with
    | .ok g => .ok g
    | .error fault => .error ⟨text, fault⟩

/-- The filter of two lists of globs. -/
def ofTexts (shown hidden : List String) : Except InvalidGlob PathFilter := do
  let shown? ← if shown.isEmpty then pure none else (globs shown).map some
  return ⟨shown?, ← globs hidden⟩

/-- The path is hidden. -/
def hides (f : PathFilter) (path : String) : Bool := f.hidden.any (·.fits path)

/-- The path is shown. -/
def shows (f : PathFilter) (path : String) : Bool :=
  !f.hides path &&
    match f.shown? with
    | none => true
    | some globs => globs.any (·.fits path)

end PathFilter

end ScriptRefactor
