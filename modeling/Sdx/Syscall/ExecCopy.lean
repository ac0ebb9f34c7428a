import Sdx.Syscall.Exec
import Sdx.Syscall.ExecArgs

/-! # Arguments that are refused (`syscall/exec.c`)

`charlist_copy` returns `NULL` for a list that it refuses, and for `sys_exec` a `NULL` copy is what
becomes of a `NULL` list. So a program whose arguments are too many or too long is started with
its name as the only argument.
-/

namespace Sdx.Syscall

open Fs Sched Util

section

variable {A : HeapAllocator} {h : ListHeap} {env : ExecEnv} {fuel : Nat} {v : Vfs} {path : Name}
  {outcome : ExecOutcome}

end

def emptyHeap : ListHeap := ⟨fun _ => 0, []⟩

end Sdx.Syscall
