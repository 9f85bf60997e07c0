import Mathlib.Algebra.Group.Basic
import Mathlib.Logic.Equiv.Defs

/-!
# Chained blocks

Before a block is encrypted, the encrypted block before it is added to it, and to the first block
an initial one. Whoever knows the initial block can decrypt, and the last encrypted block is the
initial one of what comes after.
-/

namespace Cbc

variable {β : Type}

/-- The initial block of what comes after some encrypted blocks. -/
def next (iv : β) (cs : List β) : β := cs.getLastD iv

theorem next_cons (iv c : β) (cs : List β) : next iv (c :: cs) = next c cs := by
  rw [next, List.getLastD_cons, next]

variable [AddCommGroup β] (e : Equiv.Perm β)

/-- Encrypt blocks one after the other. -/
def encrypt (iv : β) : List β → List β
  | [] => []
  | p :: ps => e (iv + p) :: encrypt (e (iv + p)) ps

def decrypt (iv : β) : List β → List β
  | [] => []
  | c :: cs => (e.symm c - iv) :: decrypt c cs

theorem length_encrypt (iv : β) (ps : List β) : (encrypt e iv ps).length = ps.length := by
  induction ps generalizing iv with
  | nil => rfl
  | cons p ps ih => rw [encrypt, List.length_cons, ih, List.length_cons]

theorem length_decrypt (iv : β) (cs : List β) : (decrypt e iv cs).length = cs.length := by
  induction cs generalizing iv with
  | nil => rfl
  | cons c cs ih => rw [decrypt, List.length_cons, ih, List.length_cons]

theorem decrypt_encrypt (iv : β) (ps : List β) : decrypt e iv (encrypt e iv ps) = ps := by
  induction ps generalizing iv with
  | nil => rfl
  | cons p ps ih => rw [encrypt, decrypt, ih, e.symm_apply_apply, add_sub_cancel_left]

end Cbc
