/-
The error numbers of Linux that the sources use.
-/
import Mathlib.Data.Nat.Notation

namespace Coropact

def ENOENT : ℕ := 2

def EIO : ℕ := 5

def EBADF : ℕ := 9

def EAGAIN : ℕ := 11

def EBUSY : ℕ := 16

def EEXIST : ℕ := 17

def EINVAL : ℕ := 22

def ENOSPC : ℕ := 28

def EPIPE : ℕ := 32

def ETIME : ℕ := 62

def ETIMEDOUT : ℕ := 110

def ECANCELED : ℕ := 125

end Coropact
