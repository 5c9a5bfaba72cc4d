import ScriptRefactor.Path.FileName

/-!
# `ScriptRefactor.Syntax.Dialect`: the dialects of a module

A module is plain (markup included), typed, or typed with markup.
Its file extension tells which; a dialect may also be asked for by
name. Upper case counts as lower case in a path and in a name, but
not in an extension given on its own.
-/

set_option autoImplicit false

namespace ScriptRefactor.Syntax

/-- The dialect a module is written in. -/
inductive Dialect where
  /-- Without types; markup is allowed. -/
  | plain
  /-- With types, without markup. -/
  | typed
  /-- With types and markup. -/
  | typedMarkup
deriving DecidableEq, Repr, Inhabited

namespace Dialect

/-- The short name of the dialect. -/
def name : Dialect → String
  | plain => "js"
  | typed => "ts"
  | typedMarkup => "tsx"

/-- The file extensions of the dialect. -/
def extensions : Dialect → List String
  | plain => ["js", "jsx", "mjs", "cjs"]
  | typed => ["ts", "mts", "cts"]
  | typedMarkup => ["tsx"]

/-- All dialects. -/
def all : List Dialect := [plain, typed, typedMarkup]

/-- The dialect of an extension. -/
def ofExtension? (ext : String) : Option Dialect := all.find? fun d => d.extensions.contains ext

/-- The dialect of the file at a path. -/
def ofPath? (path : String) : Option Dialect :=
  (Path.extensionOf? path).bind fun ext => ofExtension? ext.toLower

/-- The dialect of a name. -/
def ofName? (name : String) : Option Dialect :=
  let lower := name.toLower
  if ["js", "jsx", "javascript"].contains lower then some plain
  else if ["ts", "typescript"].contains lower then some typed
  else if lower = "tsx" then some typedMarkup
  else none

/-- Types may be written. -/
def hasTypes : Dialect → Bool
  | plain => false
  | typed | typedMarkup => true

/-- Markup may be written. -/
def hasMarkup : Dialect → Bool
  | typed => false
  | plain | typedMarkup => true

end Dialect

end ScriptRefactor.Syntax
