import SymbolIndex.Path

/-!
# Errors

Everything that can go wrong, as causes. `Error.message` is the one place where they are worded.
-/

namespace SymbolIndex

/-- Why the system could not do something with a file. -/
inductive IoCause where
  | notFound
  | exists
  | notDirectory
  | isDirectory
  | tooManyLinks
  /-- A source root that is no directory. -/
  | rootNotDirectory
  | invalidText
  /-- Any other reason, worded by whoever reports it. -/
  | other (text : String)
  deriving DecidableEq, Repr

/-- The wording of a cause. -/
def IoCause.message : IoCause → String
  | notFound => "No such file or directory (os error 2)"
  | .exists => "File exists (os error 17)"
  | notDirectory => "Not a directory (os error 20)"
  | isDirectory => "Is a directory (os error 21)"
  | tooManyLinks => "Too many levels of symbolic links (os error 40)"
  | rootNotDirectory => "not a directory"
  | invalidText => "stream did not contain valid UTF-8"
  | other text => text

/-- An error. -/
inductive Error where
  /-- A source text that is not well formed; line and column count from one. -/
  | parse (path : Path) (line column : Nat) (detail : String)
  | io (path : Path) (cause : IoCause)
  /-- A directory entry that could not be visited. -/
  | walk (reason : String)
  /-- Two declarations of one file under the same key. -/
  | duplicateSymbol (path : Path) (key : String)
  | language (reason : String)
  | config (reason : String)
  deriving DecidableEq, Repr

namespace Error

/-- The wording of an error. -/
def message : Error → String
  | parse path line column detail =>
    "Parse error in " ++ path.display ++ ":" ++ toString line ++ ":" ++ toString column ++ ": "
      ++ detail
  | io path cause => "IO error on " ++ path.display ++ ": " ++ cause.message
  | walk reason => "Walk error: " ++ reason
  | duplicateSymbol path key => "Duplicate symbol " ++ key ++ " in " ++ path.display
  | language reason => "Language error: " ++ reason
  | config reason => "Configuration error: " ++ reason

/-- The file an error is about. -/
def path? : Error → Option Path
  | parse path .. | io path _ | duplicateSymbol path _ => some path
  | walk _ | language _ | config _ => none

/-- The error behind an error. -/
def cause? : Error → Option IoCause
  | io _ cause => some cause
  | _ => none

end Error

end SymbolIndex
