/-
  ObjectMachine/Host/Error.lean
  =============================
  **What the host refuses** — failures of files and of the output.
-/

namespace ObjectMachine

/-- Why the host could not do something. -/
inductive HostError where
  | notFound
  | notDirectory
  | isDirectory
  /-- A file name or a path is longer than the host takes. -/
  | nameTooLong
  /-- A line that was read is not UTF-8. -/
  | invalidText
  /-- A file name contains a NUL character. -/
  | nulInName
  /-- The output took only a part of what was written. -/
  | shortWrite
  /-- Any other reason, in the host's own words. -/
  | refused (reason : String)
  deriving DecidableEq, Repr

/-- The text of a host error. -/
def HostError.message : HostError → String
  | .notFound => "No such file or directory (os error 2)"
  | .notDirectory => "Not a directory (os error 20)"
  | .isDirectory => "Is a directory (os error 21)"
  | .nameTooLong => "File name too long (os error 36)"
  | .invalidText => "stream did not contain valid UTF-8"
  | .nulInName => "file name contained an unexpected NUL byte"
  | .shortWrite => "failed to write whole buffer"
  | .refused reason => reason

end ObjectMachine
