/-! Why a file operation failed: a kind that programs act on and a text for readers. -/
namespace FieldTags

inductive DiskErrorKind where
  | notFound
  | permissionDenied
  | alreadyExists
  | other
  deriving DecidableEq, Repr

structure DiskError where
  kind : DiskErrorKind
  text : String
  deriving DecidableEq, Repr

namespace DiskError

/-- The failure with a number of the operating system and its description. -/
def numbered (kind : DiskErrorKind) (description : String) (code : Nat) : DiskError :=
  ⟨kind, s!"{description} (os error {code})"⟩

def missing : DiskError := numbered .notFound "No such file or directory" 2
def notAFolder : DiskError := numbered .other "Not a directory" 20
def isAFolder : DiskError := numbered .other "Is a directory" 21
def nameTooLong : DiskError := numbered .other "File name too long" 36
def zeroInPath : DiskError := ⟨.other, "file name contained an unexpected NUL byte"⟩

end DiskError
end FieldTags
