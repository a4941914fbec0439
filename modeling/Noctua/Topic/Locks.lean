import Noctua.Topic.Inversion

namespace Noctua
open Transition Wall
set_option autoImplicit true

def Effect.onQueue : Effect → List Message → List Message
  | .push m, q => q ++ [m]
  | .pop, q => q.tail
  | _, q => q

theorem Operation.start_holdsWrite (op : Operation) : op.start.holdsWrite = false := by
  cases op <;> rfl

theorem Operation.start_holdsRead (op : Operation) : op.start.holdsRead = false := by
  cases op <;> rfl

namespace Topic
variable {t u : Topic} {c d : Call} {p q : UInt16} {e : Effect}

@[simp] theorem perform_calls (t : Topic) (i : Nat) (c : Call) (e : Effect) :
    (t.perform i c e).calls = t.calls := by
  cases e with
  | store d => simp only [perform]; split <;> rfl
  | pop => simp only [perform]; split <;> rfl
  | _ => rfl

@[simp] theorem perform_storage_length (t : Topic) (i : Nat) (c : Call) (e : Effect) :
    (t.perform i c e).storage.length = t.storage.length := by
  cases e with
  | store d => simp only [perform]; split <;> rfl
  | push m => simp only [perform, emit, List.length_modify]
  | pop =>
    simp only [perform]
    split
    · rfl
    · simp only [emit, List.length_modify]
  | _ => rfl

@[simp] theorem advanced_storage_length (t : Topic) (i : Nat) (c : Call) (pc : Pc) (e : Effect) :
    (t.advanced i c pc e).storage.length = t.storage.length := perform_storage_length t i c e

@[simp] theorem advanced_queue (t : Topic) (i : Nat) (c : Call) (pc : Pc) (e : Effect)
    (p : UInt16) : (t.advanced i c pc e).queue p = (t.perform i c e).queue p := rfl

@[simp] theorem invoked_queue (t : Topic) (client : Nat) (op : Operation) (p q : UInt16) :
    (t.invoked client op p).queue q = t.queue q := rfl

theorem getD_modify_self (l : List (List Message)) (f : List Message → List Message)
    (h : i < l.length) : (l.modify i f).getD i [] = f (l.getD i []) := by
  rw [List.getD_eq_getElem?_getD, List.getD_eq_getElem?_getD, List.getElem?_modify_eq,
    List.getElem?_eq_getElem h]
  rfl

theorem perform_storage_ne (hn : n ≠ c.partition.toNat) :
    (t.perform i c e).storage[n]? = t.storage[n]? := by
  cases e with
  | store d => simp only [perform]; split <;> rfl
  | push m => exact List.getElem?_modify_ne _ _ hn.symm
  | pop =>
    simp only [perform]
    split
    · rfl
    · exact List.getElem?_modify_ne _ _ hn.symm
  | _ => rfl

theorem perform_queue_ne (h : p ≠ c.partition) : (t.perform i c e).queue p = t.queue p := by
  have hne : p.toNat ≠ c.partition.toNat := fun he => h (UInt16.toNat_inj.1 he)
  rw [queue, queue, List.getD_eq_getElem?_getD, List.getD_eq_getElem?_getD, perform_storage_ne hne]

theorem perform_queue_self (h : c.partition.toNat < t.storage.length) :
    (t.perform i c e).queue c.partition = e.onQueue (t.queue c.partition) := by
  cases e with
  | store d => simp only [perform]; split <;> rfl
  | push m => exact getD_modify_self _ _ h
  | pop =>
    simp only [perform]
    split
    · rename_i hq
      rw [hq]
      rfl
    · exact getD_modify_self _ _ h
  | _ => rfl

theorem advanced_queue_self (h : c.partition.toNat < t.storage.length) :
    (t.advanced i c pc e).queue c.partition = e.onQueue (t.queue c.partition) :=
  perform_queue_self h

theorem advanced_queue_ne (h : p ≠ c.partition) : (t.advanced i c pc e).queue p = t.queue p :=
  perform_queue_ne h

theorem init_queue (n : Nat) (p : UInt16) : (init n).queue p = [] := by
  rw [queue, init, List.getD_eq_getElem?_getD, List.getElem?_replicate]
  split <;> rfl

theorem calls_advanced (hc : t.calls[i]? = some c) :
    (t.advanced i c pc e).calls[j]? = some d ↔
      j = i ∧ d = { c with pc := pc } ∨ j ≠ i ∧ t.calls[j]? = some d := by
  have hi : i < t.calls.length := (List.getElem?_eq_some_iff.1 hc).1
  simp only [advanced, setPc, perform_calls]
  by_cases hj : j = i
  · subst j
    rw [List.getElem?_set_self hi]
    simp [eq_comm]
  · rw [List.getElem?_set_ne (Ne.symm hj)]
    simp [hj]

theorem calls_advanced_self (hc : t.calls[i]? = some c) :
    (t.advanced i c pc e).calls[i]? = some { c with pc := pc } :=
  (calls_advanced hc).2 (.inl ⟨rfl, rfl⟩)

theorem calls_advanced_ne {i j : Nat} (hc : t.calls[i]? = some c) (hj : j ≠ i)
    (hd : t.calls[j]? = some d) : (t.advanced i c pc e).calls[j]? = some d :=
  (calls_advanced hc).2 (.inr ⟨hj, hd⟩)

theorem calls_invoked : (t.invoked client op p).calls[j]? = some d ↔
    t.calls[j]? = some d ∨ j = t.calls.length ∧ d = ⟨client, op, p, op.start⟩ := by
  simp only [invoked, emit, List.getElem?_append]
  split
  · rename_i hj
    simp [Nat.ne_of_lt hj]
  · rename_i hj
    rw [List.getElem?_eq_none (Nat.le_of_not_gt hj), List.getElem?_singleton]
    simp only [reduceCtorEq, false_or]
    split
    · have he : j = t.calls.length := by omega
      simp [he, eq_comm]
    · have he : j ≠ t.calls.length := by omega
      simp [he]

theorem Next.takesWrite (hn : Next t i c pc e) (h : pc.holdsWrite = true) :
    c.pc.holdsWrite = true ∨ t.Writable c.partition := by
  cases hn with
  | acquireRemove hpc hop free => exact .inr free
  | acquirePush hpc hop free => exact .inr free
  | rejectSecond hpc | passSecond hpc | acquireWall hpc | store hpc | failStore hpc
  | releaseWall hpc | push hpc | pop hpc => exact .inl (by rw [hpc]; rfl)
  | _ => cases h

theorem Next.takesRead (hn : Next t i c pc e) (h : pc.holdsRead = true) :
    c.pc.holdsRead = true ∨ t.Readable c.partition := by
  cases hn with
  | acquireRead hpc free => exact .inr free
  | readFront hpc | rejectFirst hpc | passFirst hpc => exact .inl (by rw [hpc]; rfl)
  | _ => cases h

theorem Next.touches (hn : Next t i c pc e) :
    (∀ q, e.onQueue q = q) ∨ c.pc.holdsWrite = true := by
  cases hn with
  | push hpc | pop hpc => exact .inr (by rw [hpc]; rfl)
  | _ => exact .inl fun _ => rfl

def LocksExclude (t : Topic) : Prop :=
  ∀ (i j : Nat) (c d : Call), i ≠ j → t.calls[i]? = some c → t.calls[j]? = some d →
    c.partition = d.partition → c.pc.holdsWrite = true →
      d.pc.holdsWrite = false ∧ d.pc.holdsRead = false

theorem LocksExclude.invoked (h : LocksExclude t) : LocksExclude (t.invoked client op p) := by
  intro i j c d hij hc hd hp hw
  rcases calls_invoked.1 hc with hc | ⟨rfl, rfl⟩
  · rcases calls_invoked.1 hd with hd | ⟨rfl, rfl⟩
    · exact h i j c d hij hc hd hp hw
    · exact ⟨Operation.start_holdsWrite op, Operation.start_holdsRead op⟩
  · exact absurd hw (by simp [Operation.start_holdsWrite])

theorem LocksExclude.advanced (h : LocksExclude t) (hc : t.calls[i]? = some c)
    (hn : Next t i c pc e) : LocksExclude (t.advanced i c pc e) := by
  intro j k x y hjk hx hy hp hw
  rcases (calls_advanced hc).1 hx with ⟨rfl, rfl⟩ | ⟨hj, hx'⟩
  · rcases (calls_advanced hc).1 hy with ⟨rfl, rfl⟩ | ⟨hk, hy'⟩
    · exact (hjk rfl).elim
    · rcases hn.takesWrite hw with hw | free
      · exact h j k c y hjk hc hy' hp hw
      · exact free y (List.mem_of_getElem? hy') hp.symm
  · rcases (calls_advanced hc).1 hy with ⟨rfl, rfl⟩ | ⟨hk, hy'⟩
    · have hxc := h j k x c hjk hx' hc hp hw
      constructor
      · cases hw' : pc.holdsWrite with
        | false => rfl
        | true =>
          rcases hn.takesWrite hw' with hw' | free
          · exact absurd hw' (by simp [hxc.1])
          · exact absurd hw (by simp [(free x (List.mem_of_getElem? hx') hp).1])
      · cases hr' : pc.holdsRead with
        | false => rfl
        | true =>
          rcases hn.takesRead hr' with hr' | free
          · exact absurd hr' (by simp [hxc.2])
          · exact absurd hw (by simp [free x (List.mem_of_getElem? hx') hp])
    · exact h j k x y hjk hx' hy' hp hw

section
variable {mark : Pc → Bool} {i j : Nat}

/-- While a call holds a lock, a mark that only holders of the write lock bear is on no other
call of its partition. -/
theorem LocksExclude.unmarked (hl : LocksExclude t)
    (hm : ∀ pc, mark pc = true → pc.holdsWrite = true) (hc : t.calls[i]? = some c)
    (hh : c.pc.holdsWrite = true ∨ c.pc.holdsRead = true) (hj : j ≠ i)
    (hd : t.calls[j]? = some d) (hp : d.partition = c.partition) : mark d.pc = false := by
  cases hmd : mark d.pc with
  | false => rfl
  | true =>
    have hx := hl j i d c hj hd hc hp (hm _ hmd)
    rw [hx.1, hx.2] at hh
    rcases hh with hh | hh <;> cases hh

theorem LocksExclude.all_unmarked (hl : LocksExclude t)
    (hm : ∀ pc, mark pc = true → pc.holdsWrite = true) (hc : t.calls[i]? = some c)
    (hh : c.pc.holdsWrite = true ∨ c.pc.holdsRead = true) (own : mark c.pc = false)
    (hd : t.calls[j]? = some d) (hp : d.partition = c.partition) : mark d.pc = false := by
  by_cases hj : j = i
  · subst hj
    obtain rfl := Option.some.inj (hc.symm.trans hd)
    exact own
  · exact hl.unmarked hm hc hh hj hd hp

theorem unmarked_before (hc : t.calls[i]? = some c)
    (hu : ∀ (j : Nat) (d : Call), (t.advanced i c pc e).calls[j]? = some d → d.partition = p →
      mark d.pc = false)
    (own : c.partition = p → mark c.pc = false) (hd : t.calls[j]? = some d)
    (hp : d.partition = p) : mark d.pc = false := by
  by_cases hj : j = i
  · subst hj
    obtain rfl := Option.some.inj (hc.symm.trans hd)
    exact own hp
  · exact hu j d (calls_advanced_ne hc hj hd) hp

end

theorem queue_stable (hl : LocksExclude t) (hc : t.calls[i]? = some c) (hn : Next t i c pc e)
    (hr : c.partition.toNat < t.storage.length) (hj : j ≠ i) (hd : t.calls[j]? = some d)
    (hh : d.pc.holdsWrite = true ∨ d.pc.holdsRead = true) :
    (t.advanced i c pc e).queue d.partition = t.queue d.partition := by
  by_cases hp : d.partition = c.partition
  · rw [hp, advanced_queue_self hr]
    rcases hn.touches with ht | hw
    · exact ht _
    · have hx := hl i j c d hj.symm hc hd hp.symm hw
      simp [hx] at hh
  · exact advanced_queue_ne hp

def Local (F : List Message → Call → Prop) (t : Topic) : Prop :=
  ∀ (i : Nat) (c : Call), t.calls[i]? = some c → F (t.queue c.partition) c

theorem Local.invoked (h : Local F t) (hF : F (t.queue p) ⟨client, op, p, op.start⟩) :
    Local F (t.invoked client op p) := by
  intro i c hc
  rcases calls_invoked.1 hc with hc | ⟨rfl, rfl⟩
  · exact h i c hc
  · exact hF

/-- The rule for local facts: a step of another call cannot disturb them while the call holds
a lock, and without a lock they do not depend on the queue. -/
theorem Local.advanced (h : Local F t) (hl : LocksExclude t) (hc : t.calls[i]? = some c)
    (hn : Next t i c pc e) (hr : c.partition.toNat < t.storage.length)
    (own : F (t.queue c.partition) c → F (e.onQueue (t.queue c.partition)) { c with pc := pc })
    (free : ∀ q q' d, d.pc.holdsWrite = false → d.pc.holdsRead = false → F q d → F q' d) :
    Local F (t.advanced i c pc e) := by
  intro j d hd
  rcases (calls_advanced hc).1 hd with ⟨rfl, rfl⟩ | ⟨hj, hd⟩
  · have hq : (t.advanced j c pc e).queue c.partition = e.onQueue (t.queue c.partition) :=
      advanced_queue_self hr
    exact hq.symm ▸ own (h j c hc)
  · have hF := h j d hd
    cases hw : d.pc.holdsWrite with
    | true => exact (queue_stable hl hc hn hr hj hd (.inl hw)).symm ▸ hF
    | false =>
      cases hrd : d.pc.holdsRead with
      | true => exact (queue_stable hl hc hn hr hj hd (.inr hrd)).symm ▸ hF
      | false => exact free _ _ d hw hrd hF

end Topic
end Noctua
