/-!
# Why a disk step fails

The causes carry the wording of the system that the disk belongs to.
-/

namespace EditGate.Disk

inductive Cause where
  | notFound
  | busy
  | alreadyExists
  | notADirectory
  | isADirectory
  | invalidArgument
  | nameTooLong
  | notEmpty
  | nulInName
  | notText
  | noWholeTree
  /-- A cause of any other kind, in the system's words. -/
  | other (text : String)
deriving DecidableEq, Repr

/-- A numbered cause. -/
def Cause.numbered (text : String) (n : Nat) : String :=
  text ++ " (os error " ++ toString n ++ ")"

def Cause.message : Cause → String
  | notFound => numbered "No such file or directory" 2
  | busy => numbered "Device or resource busy" 16
  | alreadyExists => numbered "File exists" 17
  | notADirectory => numbered "Not a directory" 20
  | isADirectory => numbered "Is a directory" 21
  | invalidArgument => numbered "Invalid argument" 22
  | nameTooLong => numbered "File name too long" 36
  | notEmpty => numbered "Directory not empty" 39
  | nulInName => "file name contained an unexpected NUL byte"
  | notText => "stream did not contain valid UTF-8"
  | noWholeTree => "failed to create whole tree"
  | other text => text

end EditGate.Disk
