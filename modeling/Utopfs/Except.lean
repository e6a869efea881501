/-
**The exceptions of the program.**

`libutp/src/Except.h` gives one class per kind of failure, each with a text; the file system code
additionally throws plain `errno` values.  Two further outcomes have no class of their own because
the program does not survive them: the dereference of a null handle, and an operation that C++
leaves undefined (erasing through a list iterator that is not, or no longer, in the list).
-/

set_option relaxedAutoImplicit false
set_option autoImplicit false

namespace Utopfs

/-- The `errno` values thrown by the file system code. -/
inductive Errno
  | enoent | eexist | eisdir | enotdir | enotempty | einval | eio
  deriving DecidableEq, Repr

/-- The value of an `errno`. -/
def Errno.code : Errno → Int
  | .enoent => 2
  | .eio => 5
  | .eexist => 17
  | .enotdir => 20
  | .eisdir => 21
  | .einval => 22
  | .enotempty => 39

/-- `ACE_OS::strerror` of the values above. -/
def strerror : Int → String
  | 2 => "No such file or directory"
  | 5 => "Input/output error"
  | 17 => "File exists"
  | 20 => "Not a directory"
  | 21 => "Is a directory"
  | 22 => "Invalid argument"
  | 39 => "Directory not empty"
  | _ => "Unknown error"

/-- How an operation of the program can end other than by returning. -/
inductive Exn
  | internalError (details : String)
  | operationError (details : String)
  | notFoundError (details : String)
  | notUniqueError (details : String)
  | valueError (details : String)
  | parseError (details : String)
  | verificationError (details : String)
  | noSpaceError (details : String)
  /-- A thrown `errno`. -/
  | errno (e : Errno)
  /-- A null handle is dereferenced. -/
  | nullHandle
  /-- The call does not return. -/
  | hang (what : String)
  /-- The behaviour of the C++ program is undefined from here on. -/
  | undefined (what : String)
  deriving DecidableEq, Repr

end Utopfs
