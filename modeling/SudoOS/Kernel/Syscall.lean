import Mathlib

/-! The error numbers of `syscall.rs`. They are positive there: a call that fails with one of them has to return its
negation. -/

namespace SudoOS.Syscall

def ebadf : Int := 9
def eagain : Int := 11
def einval : Int := 22

end SudoOS.Syscall
