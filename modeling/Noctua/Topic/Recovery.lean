import Noctua.Topic.Logged

namespace Noctua
open Transition Wall
set_option autoImplicit true

namespace Topic
variable {t u : Topic} {c d : Call} {p q : UInt16} {e : Effect} {hash : Request → Nat}

/-- A run in which every call has returned, every store has succeeded, and every pushed
request is one of `R`. -/
structure Ends (hash : Request → Nat) (n : Nat) (R : Request → Prop) (t : Topic) : Prop where
  reached : ∃ acts, exec (step hash) (init n) acts = some t
  returned : ∀ c ∈ t.calls, ∃ a, c.pc = .finished a
  stored : t.wallWriter.failed = false
  drawn : ∀ c ∈ t.calls, ∀ r padding, c.operation = .push r padding → R r

def WallDetermines (hash : Request → Nat) (n : Nat) (R : Request → Prop) : Prop :=
  ∀ t u, Ends hash n R t → Ends hash n R u → t.wallWriter.file = u.wallWriter.file →
    ∀ p, t.texts p = u.texts p

/-- Requests that are pushed to one partition from one address with one length carry one text. -/
def ViewsFixTexts (hash : Request → Nat) (n : Nat) (R : Request → Prop) : Prop :=
  ∀ r s padding padding', R r → R s →
    ((Operation.push r padding).partitionIdx hash n).toNat < n →
    (Operation.push r padding).partitionIdx hash n =
      (Operation.push s padding').partitionIdx hash n →
    r.message.address = s.message.address →
    r.message.text.length = s.message.text.length → r.message.text = s.message.text

def Placed (hash : Request → Nat) (t : Topic) : Prop :=
  ∀ (i : Nat) (c : Call), t.calls[i]? = some c →
    c.partition = c.operation.partitionIdx hash t.storage.length

theorem placed_step (h : Placed hash t) (hs : t.step hash a = some u) : Placed hash u := by
  obtain ⟨client, op, -, -, -, rfl⟩ | ⟨i, c, pc, e, -, hc, -, rfl⟩ := step_cases hs
  · intro j d hd
    rcases calls_invoked.1 hd with hd | ⟨rfl, rfl⟩
    · exact h j d hd
    · rfl
  · intro j d hd
    rw [advanced_storage_length]
    rcases (calls_advanced hc).1 hd with ⟨rfl, rfl⟩ | ⟨hj, hd⟩
    · exact h j c hc
    · exact h j d hd

theorem placed_of_exec (h : exec (step hash) (init n) acts = some t) : Placed hash t := by
  apply exec_invariant (fun _ _ _ h hs => placed_step h hs) _ h
  intro i c hc
  cases hc

def pushRun (r : Request) (padding : Padding) : List TopicAction :=
  [.invoke 0 (.push r padding), .advance 0, .advance 0, .advance 0, .advance 0, .advance 0,
    .advance 0]

def alone (c : Call) (storage : List (List Message)) (w : WallWriter)
    (trace : List (UInt16 × TraceEvent)) : Topic := ⟨storage, w, [c], trace⟩

def pushEnd (n : Nat) (r : Request) (padding : Padding) (p : UInt16) : Topic :=
  alone ⟨0, .push r padding, p, .finished .pushed⟩
    ((List.replicate n []).modify p.toNat (· ++ [⟨0, r.message.text⟩]))
    ⟨WallData.bytes ⟨p, true, padding, r.message⟩, false⟩
    [(p, .invoke 0 (.push r padding)), (p, .stored ⟨p, true, padding, r.message⟩),
      (p, .pushed ⟨0, r.message.text⟩), (p, .respond 0 (.push r padding) .pushed)]

section
variable {s : List (List Message)} {w : WallWriter} {tr : List (UInt16 × TraceEvent)}

theorem step_alone (hn : (alone c s w tr).next 0 c = some (pc, e)) :
    (alone c s w tr).step hash (.advance 0) = some ((alone c s w tr).advanced 0 c pc e) := by
  simp only [step, alone, List.getElem?_cons_zero, Option.bind_some]
  rw [← alone, hn]
  rfl

theorem alone_writable (hw : c.pc.holdsWrite = false) (hr : c.pc.holdsRead = false) :
    (alone c s w tr).Writable p := by
  intro d hd _
  rw [List.mem_singleton.1 hd]
  exact ⟨hw, hr⟩

theorem alone_wallFree (hw : c.pc.holdsWall = false) : (alone c s w tr).WallFree := by
  intro d hd
  rw [List.mem_singleton.1 hd]
  exact hw

end

theorem next_push (hpc : c.pc = .awaitWrite) (hop : c.operation = .push r padding)
    (free : t.Writable c.partition) : t.next i c = some (.awaitWall, .none) := by
  simp only [next, hpc, hop, if_pos free]

theorem next_awaitWall (hpc : c.pc = .awaitWall) (free : t.WallFree) :
    t.next i c = some (.store, .none) := by
  simp only [next, hpc, if_pos free]

theorem exec_pushRun (hp : (Operation.push r padding).partitionIdx hash n = p)
    (hlt : p.toNat < n) :
    exec (step hash) (init n) (pushRun r padding) = some (pushEnd n r padding p) := by
  have hinvoke : (init n).step hash (.invoke 0 (.push r padding)) =
      some (alone ⟨0, .push r padding, p, .awaitWrite⟩ (List.replicate n []) {}
        [(p, .invoke 0 (.push r padding))]) := by
    have hlen : (init n).storage.length = n := List.length_replicate
    simp only [step, hlen, hp, Operation.asserts, hlt, and_self, ↓reduceIte]
    rfl
  have hwrite {s w tr} : (alone ⟨0, .push r padding, p, .awaitWrite⟩ s w tr).step hash
      (.advance 0) = some (alone ⟨0, .push r padding, p, .awaitWall⟩ s w tr) :=
    step_alone (next_push rfl rfl (alone_writable rfl rfl))
  have hwall {s w tr} : (alone ⟨0, .push r padding, p, .awaitWall⟩ s w tr).step hash
      (.advance 0) = some (alone ⟨0, .push r padding, p, .store⟩ s w tr) :=
    step_alone (next_awaitWall rfl (alone_wallFree rfl))
  have hstore {s tr} : (alone ⟨0, .push r padding, p, .store⟩ s {} tr).step hash
      (.advance 0) = some (alone ⟨0, .push r padding, p, .releaseWall⟩ s
        ⟨[] ++ WallData.bytes ⟨p, true, padding, r.message⟩, false⟩
        (tr ++ [(p, .stored ⟨p, true, padding, r.message⟩)])) :=
    step_alone (e := .store ⟨p, true, padding, r.message⟩) rfl
  have hrelease {s w tr} : (alone ⟨0, .push r padding, p, .releaseWall⟩ s w tr).step hash
      (.advance 0) = some (alone ⟨0, .push r padding, p, .mutate⟩ s w tr) :=
    step_alone (e := .none) rfl
  have hmutate {s w tr} : (alone ⟨0, .push r padding, p, .mutate⟩ s w tr).step hash
      (.advance 0) = some (alone ⟨0, .push r padding, p, .releaseWrite .pushed⟩
        (s.modify p.toNat (· ++ [⟨0, r.message.text⟩])) w
        (tr ++ [(p, .pushed ⟨0, r.message.text⟩)])) :=
    step_alone (e := .push ⟨0, r.message.text⟩) rfl
  have hanswer {s w tr} : (alone ⟨0, .push r padding, p, .releaseWrite .pushed⟩ s w tr).step hash
      (.advance 0) = some (alone ⟨0, .push r padding, p, .finished .pushed⟩ s w
        (tr ++ [(p, .respond 0 (.push r padding) .pushed)])) :=
    step_alone (e := .respond .pushed) rfl
  refine exec_cons_some.2 ⟨_, hinvoke, ?_⟩
  refine exec_cons_some.2 ⟨_, hwrite, ?_⟩
  refine exec_cons_some.2 ⟨_, hwall, ?_⟩
  refine exec_cons_some.2 ⟨_, hstore, ?_⟩
  refine exec_cons_some.2 ⟨_, hrelease, ?_⟩
  refine exec_cons_some.2 ⟨_, hmutate, ?_⟩
  refine exec_cons_some.2 ⟨_, hanswer, ?_⟩
  rw [List.nil_append]
  rfl

theorem pushEnd_texts (hlt : p.toNat < n) :
    (pushEnd n r padding p).texts p = [r.message.text] := by
  have hlen : p.toNat < (List.replicate n ([] : List Message)).length := by
    rwa [List.length_replicate]
  have hq := getD_modify_self (List.replicate n []) (· ++ [⟨0, r.message.text⟩]) hlen
  have hnil : (List.replicate n ([] : List Message)).getD p.toNat [] = [] := init_queue n p
  rw [hnil] at hq
  exact congrArg (List.map Message.text) hq

theorem ends_pushRun {R : Request → Prop} (r : Request) (padding : Padding) (hr : R r)
    (hp : (Operation.push r padding).partitionIdx hash n = p) (hlt : p.toNat < n) :
    Ends hash n R (pushEnd n r padding p) where
  reached := ⟨_, exec_pushRun hp hlt⟩
  returned := by
    intro c hc
    rw [List.mem_singleton.1 hc]
    exact ⟨_, rfl⟩
  stored := rfl
  drawn := by
    intro c hc s padding' hs
    rw [List.mem_singleton.1 hc] at hs
    cases hs
    exact hr

theorem Ends.replay {R : Request → Prop} (h : Ends hash n R t) (p : UInt16) :
    replay (t.records p) = some (t.texts p) := by
  obtain ⟨acts, hx⟩ := h.reached
  apply (logged_of_exec hx h.stored).settled
  intro i c hc _
  obtain ⟨a, ha⟩ := h.returned c (List.mem_of_getElem? hc)
  rw [ha]
  rfl

theorem Ends.request {R : Request → Prop} {x : WallData} (h : Ends hash n R t) (hx : x ∈ t.log)
    (hpush : x.isPushOperation = true) :
    ∃ r padding, R r ∧ (Operation.push r padding).partitionIdx hash n = x.identifier ∧
      x.identifier.toNat < n ∧ x.message = r.message := by
  obtain ⟨acts, hexec⟩ := h.reached
  obtain ⟨i, c, hc, hcx⟩ := (logged_of_exec hexec h.stored).origin x hx
  have hlen := storage_length_of_exec hexec
  have hplace := placed_of_exec hexec i c hc
  have hlt := (coherent_of_exec hexec).inRange i c hc
  rw [hlen] at hplace hlt
  obtain ⟨client, op, p, pc⟩ := c
  cases op with
  | push r padding =>
    cases hcx
    exact ⟨r, padding, h.drawn _ (List.mem_of_getElem? hc) r padding rfl, hplace.symm, hlt, rfl⟩
  | read => cases hcx
  | remove r padding =>
    cases hcx
    cases hpush

theorem Ends.sameEffect {R : Request → Prop} (hv : ViewsFixTexts hash n R) (ht : Ends hash n R t)
    (hu : Ends hash n R u) {x y : WallData} (hx : x ∈ t.log) (hy : y ∈ u.log)
    (hb : x.bytes = y.bytes) : SameEffect x y := by
  obtain ⟨hid, hpush, -, hlen, haddr⟩ := (WallData.bytes_eq_iff x y).1 hb
  refine ⟨hpush, fun hp => ?_⟩
  obtain ⟨r, padding, hr, hri, hlt, hrm⟩ := ht.request hx hp
  obtain ⟨s, padding', hs, hsi, -, hsm⟩ := hu.request hy (hpush ▸ hp)
  rw [hrm, hsm] at hlen haddr ⊢
  exact hv r s padding padding' hr hs (hri ▸ hlt) (hri.trans (hid.trans hsi.symm)) haddr hlen

/-- The wall file determines the partitions exactly when the views of the pushed requests
determine their texts: the records carry an address and a length, not the text. -/
theorem wall_determines_iff (hash : Request → Nat) (n : Nat) (R : Request → Prop) :
    WallDetermines hash n R ↔ ViewsFixTexts hash n R := by
  constructor
  · intro h r s padding padding' hr hs hlt hidx haddr hlen
    have hs' : (Operation.push s padding).partitionIdx hash n =
        (Operation.push r padding).partitionIdx hash n := hidx.symm
    have he := h _ _ (ends_pushRun r padding hr rfl hlt) (ends_pushRun s padding hs hs' hlt)
      ((WallData.bytes_eq_iff _ _).2 ⟨rfl, rfl, rfl, hlen, haddr⟩)
      ((Operation.push r padding).partitionIdx hash n)
    rw [pushEnd_texts hlt, pushEnd_texts hlt] at he
    exact (List.cons.inj he).1
  · intro hv t u ht hu hfile p
    obtain ⟨_, ht'⟩ := ht.reached
    obtain ⟨_, hu'⟩ := hu.reached
    rw [(logged_of_exec ht' ht.stored).file, (logged_of_exec hu' hu.stored).file] at hfile
    have hbytes := forall₂_bytes hfile
    have hsame : List.Forall₂ (fun x y => x.identifier = y.identifier ∧ SameEffect x y)
        t.log u.log := by
      refine List.forall₂_iff_zip.2 ⟨hbytes.length_eq, fun {x y} hm => ?_⟩
      have hb := (List.forall₂_iff_zip.1 hbytes).2 hm
      obtain ⟨hx, hy⟩ := List.of_mem_zip hm
      exact ⟨((WallData.bytes_eq_iff x y).1 hb).1, ht.sameEffect hv hu hx hy hb⟩
    have hrecords : List.Forall₂ SameEffect (t.records p) (u.records p) := by
      refine (List.rel_filter (fun x y hxy => ?_) hsame).imp fun _ _ hxy => hxy.2
      dsimp only
      rw [hxy.1]
    exact replay_sameEffect hrecords (ht.replay p) (hu.replay p)

/-- Two texts at one address. -/
theorem wall_determines_fails : ¬ ∀ hash n R, WallDetermines hash n R := by
  intro h
  have hr : (Request.ofByte 98).message.text ≠
      (Request.ofByte 99).message.text := by decide
  have he := h (fun _ => 0) 1 (fun _ => True) _ _
    (ends_pushRun (p := 0) (.ofByte 98) (.replicate 5 0) trivial rfl (by decide))
    (ends_pushRun (p := 0) (.ofByte 99) (.replicate 5 0) trivial rfl (by decide))
    ((WallData.bytes_eq_iff _ _).2 ⟨rfl, rfl, rfl, rfl, rfl⟩) 0
  rw [pushEnd_texts (by decide), pushEnd_texts (by decide)] at he
  exact hr (List.cons.inj he).1

end Topic
end Noctua
