import Noctua.Common

namespace Noctua.Messages
set_option autoImplicit true

/-- A `message_t` on the heap: the word with `next_` in its low 47 bits and `data_len_` in the 16
above them, and the characters behind it. `id` numbers the call of `create_message`. -/
structure MessageNode where
  id : Nat
  word : Nat
  data : Text
  deriving DecidableEq, Repr

namespace MessageNode

def nextBits : Nat := 47

def create (id : Nat) (msg : Text) : MessageNode where
  id := id
  word := msg.length % 2 ^ 16 * 2 ^ nextBits
  data := msg

def getNext (m : MessageNode) : Nat := m.word % 2 ^ nextBits

def setNext (m : MessageNode) (next : Nat) : MessageNode :=
  { m with word := m.word / 2 ^ nextBits * 2 ^ nextBits + next % 2 ^ nextBits }

def size (m : MessageNode) : Nat := m.word / 2 ^ nextBits % 2 ^ 16

def getData (m : MessageNode) : Text := m.data.take m.size

@[simp] theorem getNext_create (id : Nat) (msg : Text) : (create id msg).getNext = 0 :=
  Nat.mul_mod_left _ _

@[simp] theorem size_create (id : Nat) (msg : Text) :
    (create id msg).size = msg.length % 2 ^ 16 := by
  rw [size, create, Nat.mul_div_cancel _ (by decide), Nat.mod_mod]

theorem getNext_setNext (m : MessageNode) (h : next < 2 ^ nextBits) :
    (m.setNext next).getNext = next := by
  rw [getNext, setNext, Nat.mul_add_mod_self_right, Nat.mod_mod, Nat.mod_eq_of_lt h]

@[simp] theorem size_setNext (m : MessageNode) (next : Nat) : (m.setNext next).size = m.size := by
  have h : (m.word / 2 ^ nextBits * 2 ^ nextBits + next % 2 ^ nextBits) / 2 ^ nextBits =
      m.word / 2 ^ nextBits := by
    rw [Nat.mul_comm, Nat.mul_add_div (by decide), Nat.div_eq_of_lt (Nat.mod_lt _ (by decide)),
      Nat.add_zero]
  rw [size, setNext, h, size]

end MessageNode
end Noctua.Messages
