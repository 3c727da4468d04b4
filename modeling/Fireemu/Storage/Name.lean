import Mathlib.Order.Lex
import Fireemu.Types.Ids

/-!
# Bucket and object names

Names are texts that a validator accepts.  A boundary of a range of names is any text: it is never
stored.
-/

namespace Fireemu.Storage

/-- Maximum object name length in UTF-8 bytes. -/
def maxObjectNameBytes : ℕ := 1024

/-- Maximum bucket name length. -/
def maxBucketNameLen : ℕ := 222

/-- Why a name was rejected. -/
inductive NameError
  | empty
  | tooLong
  | controlCharacter
  | dot
  | reservedPrefix
  | invalidBucketCharacter
  deriving DecidableEq, Repr

/-- Validates a decoded object name. -/
def validateObjectName (name : Str) : Except NameError Unit :=
  if name.isEmpty then .error .empty
  else if maxObjectNameBytes < name.utf8Len then .error .tooLong
  else if name.any fun c => c = '\r' ∨ c = '\n' ∨ c = '\x00' then .error .controlCharacter
  else if name = ['.'] ∨ name = ['.', '.'] then .error .dot
  else if ".well-known/acme-challenge/".toList.isPrefixOf name then .error .reservedPrefix
  else .ok ()

/-- Validates a bucket name. -/
def validateBucketName (name : Str) : Except NameError Unit :=
  if name.isEmpty then .error .empty
  else if maxBucketNameLen < name.utf8Len then .error .tooLong
  else if ¬ name.all fun c => c.isLower || c.isDigit || c = '-' || c = '_' || c = '.' then
    .error .invalidBucketCharacter
  else .ok ()

/-- A validated object name; `/` is an ordinary character. -/
abbrev ObjectName := {s : Str // validateObjectName s = .ok ()}

/-- A validated bucket name. -/
abbrev BucketName := {s : Str // validateBucketName s = .ok ()}

/-- A bucket and an object name. -/
def sampleBucket : BucketName := ⟨['b'], by decide⟩

@[inherit_doc sampleBucket]
def sampleName : ObjectName := ⟨['n'], by decide⟩

end Fireemu.Storage
