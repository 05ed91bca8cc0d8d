import Jerboa.Net.Address
import Mathlib.Data.List.Infix

/-!
# Resource names

`naming.ValidateResourceName`: which names of networks and volumes may become
one component of a path below a store's root.
-/

namespace Jerboa.Naming

open Net.Address

/-- The reasons of `ErrInvalidResourceName`, in the order they are checked. -/
inductive NameErr where
  | empty
  | tooLong
  | separators
  | invalid
  | trailingDot
  | reservedDevice
deriving DecidableEq, Repr

def maxResourceNameLen : Nat := 64

def windowsReserved : List Text :=
  ["CON", "PRN", "AUX", "NUL",
    "COM1", "COM2", "COM3", "COM4", "COM5", "COM6", "COM7", "COM8", "COM9",
    "LPT1", "LPT2", "LPT3", "LPT4", "LPT5", "LPT6", "LPT7", "LPT8", "LPT9"].map String.toList

/-- `len(name)`, which counts bytes. -/
def byteLen (name : Text) : Nat := (name.map Char.utf8Size).sum

def matchesResourceName : Text → Bool
  | [] => false
  | c :: rest =>
    c.isAlphanum && rest.all fun c => c.isAlphanum || c == '_' || c == '.' || c == '-'

def validateResourceName (name : Text) : Except NameErr Unit :=
  if name = [] then .error .empty
  else if maxResourceNameLen < byteLen name then .error .tooLong
  else if '/' ∈ name ∨ '\\' ∈ name ∨ ['.', '.'] <:+: name then .error .separators
  else if ¬matchesResourceName name then .error .invalid
  else if name.getLast? = some '.' then .error .trailingDot
  else if (name.takeWhile (· ≠ '.')).map Char.toUpper ∈ windowsReserved then
    .error .reservedDevice
  else .ok ()

end Jerboa.Naming
