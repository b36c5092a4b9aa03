import ShmSpsc.Spsc

/-!
# The zero-copy peek

A pointer that `front` has returned stays good until the consumer takes an element. In the
run that follows the producer may do anything, and the consumer may call `front` again, copy
through the pointer and call `pop()`, up to the store of `pop()`; `Spsc.consumes` are the
steps that end it. `Spsc.Peeked` is what holds along such a run, and `Spsc.peek_contract`
reads off it that the element stays, that every `front` returns the same pointer, that the
assertion of `pop()` holds, and that its store releases this element and no other.
-/

namespace ShmSpsc

open Transition

variable {T : Type*}

/-- The slot of the pointer that a call of `front` has just returned to the user. -/
def Consumer.frontResult (q : Consumer T) : Option UInt64 :=
  match q.pc with
  | .ready (some (.front p)) => p
  | _ => none

theorem Consumer.frontResult_eq_some (q : Consumer T) {r : UInt64} (h : q.frontResult = some r) :
    q.pc = .ready (some (.front (some r))) := by
  unfold frontResult at h
  split at h
  · rename_i p hpc
    rw [hpc, h]
  · cases h

/-- A `front` that has returned a pointer has left it with the consumer. -/
def Consumer.FrontHeld (q : Consumer T) : Prop :=
  ∀ r, q.pc = .ready (some (.front (some r))) → q.held = some r

theorem Consumer.frontHeld_of_act {ring ring' : Ring T} {q q' : Consumer T} {a : PopAct}
    {xs : List T} (hq : q.FrontHeld) (h : q.act ring a = some (ring', q', xs)) :
    q'.FrontHeld := by
  obtain ⟨handle, held, peeked, pc⟩ := q
  cases a with
  | copyFront =>
    cases pc <;> cases held <;> cases h
    exact hq
  | step =>
    cases pc with
    | frontTest k r =>
      simp only [act] at h
      split_ifs at h <;> cases h
      · simp [FrontHeld]
      · cases k <;> simp [FrontHeld, frontSlot]
    | frontRefresh k r =>
      simp only [act] at h
      split_ifs at h <;> cases h
      · cases k <;> simp [FrontHeld, frontNull]
      · cases k <;> simp [FrontHeld, frontSlot]
    | popStore b r =>
      cases h
      cases b <;> simp [FrontHeld, released, PopBy.result]
    | popNCopy r count dst =>
      cases h
      intro r' hr'
      dsimp only at hr'
      split_ifs at hr'
    | _ =>
      simp only [act, reduceCtorEq] at h
      try split_ifs at h
      all_goals cases h
      all_goals simp [FrontHeld, released]
  | _ =>
    cases pc <;> try cases held
    all_goals simp only [act, reduceCtorEq] at h
    all_goals try split_ifs at h
    all_goals cases h
    all_goals simp [FrontHeld]

/-- Where a consumer that holds the pointer to slot `r` can be before its next consuming
operation : calls of the user to `front`, and a `pop()` of the user up to its store. -/
def PopPc.Peeking (r : UInt64) : PopPc T → Prop
  | .ready ret => ∀ p, ret = some (.front p) → p = some r
  | .frontLoad k => k = .user
  | .frontTest k _ => k = .user
  | .frontRefresh k _ => k = .user
  | .popLoad b => ∃ x, b = .user x
  | .popAssert b _ => ∃ x, b = .user x
  | .popStore b _ => ∃ x, b = .user x
  | _ => False

/-- A consuming operation : a call of `try_pop` or `pop_n`, or the store of `pop()`. -/
def Consumer.consumes (q : Consumer T) : PopAct → Bool
  | .tryPop => true
  | .popN _ => true
  | .step =>
    match q.pc with
    | .popStore _ _ => true
    | _ => false
  | _ => false

/-- A step that does not consume keeps the pointer. -/
theorem Consumer.peeking_of_act {c : Capacity} {log : Log T} {ring ring' : Ring T}
    {q q' : Consumer T} {a : PopAct} {xs : List T} {r : UInt64} (hring : ring.Holds c log)
    (hq : q.Inv c ring log) (hheld : q.held = some r) (hpc : q.pc.Peeking r)
    (ha : q.consumes a = false) (h : q.act ring a = some (ring', q', xs)) :
    xs = [] ∧ q'.held = some r ∧ q'.pc.Peeking r := by
  obtain ⟨hr, hcache⟩ := hq.held r hheld
  have hle := hcache.le
  have hne : ring.readIdx ≠ ring.writeIdx := by
    rw [Ne, cell_eq_iff c hring.write hring.read hring.le hring.room]
    omega
  have hloc := hq.pc
  obtain ⟨handle, held, peeked, pc⟩ := q
  obtain rfl : held = some r := hheld
  cases a with
  | front =>
    cases pc <;> cases h
    exact ⟨rfl, rfl, rfl⟩
  | copyFront =>
    cases pc <;> cases h
    exact ⟨rfl, rfl, hpc⟩
  | pop =>
    cases pc <;> cases h
    exact ⟨rfl, rfl, peeked, rfl⟩
  | tryPop => simp [consumes] at ha
  | popN n => simp [consumes] at ha
  | step =>
    cases pc with
    | ready ret => cases h
    | frontLoad k =>
      cases h
      exact ⟨rfl, rfl, hpc⟩
    | frontTest k i =>
      obtain rfl : k = .user := hpc
      simp only [act] at h
      split_ifs at h
      · cases h
        exact ⟨rfl, rfl, rfl⟩
      · cases h
        have hi : i = r := hloc.1.trans hr.symm
        subst hi
        exact ⟨rfl, rfl, by simp [frontSlot, PopPc.Peeking]⟩
    | frontRefresh k i =>
      obtain rfl : k = .user := hpc
      have hi : i = r := hloc.1.trans hr.symm
      subst hi
      simp only [act] at h
      split_ifs at h with heq
      · exact absurd (hr.symm.trans heq) hne
      · cases h
        exact ⟨rfl, rfl, by simp [frontSlot, PopPc.Peeking]⟩
    | popLoad b =>
      cases h
      exact ⟨rfl, rfl, hpc⟩
    | popAssert b i =>
      simp only [act] at h
      split_ifs at h with heq
      · exact absurd (hloc.1.symm.trans heq.symm) hne
      · cases h
        exact ⟨rfl, rfl, hpc⟩
    | popStore b i => simp [consumes] at ha
    | _ => exact hpc.elim

namespace Spsc

/-- A consuming operation of the system's consumer. -/
def consumes (s : Spsc T) : SpscAct T → Bool
  | .consume a =>
    match s.consumer with
    | .up q => q.consumes a
    | _ => false
  | _ => false

/-- The pointer that `front` has just returned to the user. -/
def frontResult (s : Spsc T) : Option UInt64 :=
  match s.consumer with
  | .up q => q.frontResult
  | _ => none

theorem frontResult_eq_some {s : Spsc T} {r : UInt64} (h : s.frontResult = some r) :
    ∃ q, s.consumer = .up q ∧ q.pc = .ready (some (.front (some r))) := by
  unfold frontResult at h
  split at h
  · rename_i q hq
    exact ⟨q, hq, q.frontResult_eq_some h⟩
  · cases h

/-- Along every run, a pointer that `front` has returned is held. -/
theorem frontHeld_of_reachable {capacity : UInt64} {role : Role} {slots : ℕ → T} {s : Spsc T}
    (run : Reachable (step capacity) (created capacity role slots) s) :
    ∀ q, s.consumer = .up q → q.FrontHeld := by
  refine run.invariant (I := fun s => ∀ q, s.consumer = .up q → q.FrontHeld) ?_
    fun s a s' hs _ hstep => ?_
  · intro q hq
    cases role <;> cases hq
    simp [Consumer.FrontHeld, Consumer.fresh]
  · cases a with
    | attachProducer =>
      cases hp : s.producer <;> simp only [step, hp, Option.some.injEq, reduceCtorEq] at hstep
      all_goals subst hstep
      all_goals exact hs
    | attachConsumer =>
      cases hc : s.consumer <;> simp only [step, hc, Option.some.injEq, reduceCtorEq] at hstep
      all_goals subst hstep
      all_goals rintro q ⟨⟩
      simp [Consumer.FrontHeld, Consumer.fresh]
    | produce a =>
      cases hp : s.producer <;> simp only [step, hp, reduceCtorEq] at hstep
      obtain ⟨⟨ring, p', xs⟩, -, rfl⟩ := Option.map_eq_some_iff.mp hstep
      exact hs
    | consume a =>
      cases hc : s.consumer with
      | absent => simp [step, hc] at hstep
      | loading r => simp [step, hc] at hstep
      | up q =>
        simp only [step, hc] at hstep
        obtain ⟨⟨ring, q', xs⟩, hact, rfl⟩ := Option.map_eq_some_iff.mp hstep
        rintro q ⟨rfl⟩
        exact Consumer.frontHeld_of_act (hs _ hc) hact

/-- What holds in `s`, after a run without a consuming operation from a state `s₀` in which
the consumer holds the pointer to slot `r`. -/
structure Peeked (c : Capacity) (r : UInt64) (s₀ s : Spsc T) : Prop where
  inv : Inv c s
  released : s.log.released = s₀.log.released
  published : s₀.log.published <+: s.log.published
  consumer : ∃ q, s.consumer = .up q ∧ q.held = some r ∧ q.pc.Peeking r

/-- Every step that does not consume keeps it. -/
theorem peeked_step {c : Capacity} {r : UInt64} {s₀ s s' : Spsc T} {a : SpscAct T}
    (h : Peeked c r s₀ s) (ha : s.consumes a = false) (hstep : s.step c.slots a = some s') :
    Peeked c r s₀ s' := by
  have hinv := inv_step h.inv hstep
  obtain ⟨q, hq, hheld, hpc⟩ := h.consumer
  cases a with
  | attachProducer =>
    cases hp : s.producer <;> simp only [Spsc.step, hp, Option.some.injEq, reduceCtorEq] at hstep
    all_goals subst hstep
    all_goals exact ⟨hinv, h.released, h.published, q, hq, hheld, hpc⟩
  | attachConsumer => simp [Spsc.step, hq] at hstep
  | produce a =>
    cases hp : s.producer <;> simp only [Spsc.step, hp, reduceCtorEq] at hstep
    obtain ⟨⟨ring, p', xs⟩, -, rfl⟩ := Option.map_eq_some_iff.mp hstep
    refine ⟨hinv, h.released, h.published.trans ?_, q, hq, hheld, hpc⟩
    exact List.prefix_append _ _
  | consume a =>
    simp only [Spsc.step, hq] at hstep
    obtain ⟨⟨ring, q', xs⟩, hact, rfl⟩ := Option.map_eq_some_iff.mp hstep
    have hquiet : q.consumes a = false := by simpa [consumes, hq] using ha
    obtain ⟨rfl, hheld', hpc'⟩ :=
      Consumer.peeking_of_act h.inv.ring (h.inv.consumer q hq) hheld hpc hquiet hact
    refine ⟨hinv, ?_, h.published, q', rfl, hheld', hpc'⟩
    simpa using h.released

theorem Peeked.of_reaches {c : Capacity} {r : UInt64} {s₀ s : Spsc T} (h : Peeked c r s₀ s₀)
    (run : Reaches (step c.slots) (fun s a => s.consumes a = false) s₀ s) : Peeked c r s₀ s :=
  run.invariant h fun _ _ _ hs ha hstep => peeked_step hs ha hstep

/-- The slot of the pointer holds the oldest waiting element, which is what it held when
`front` returned it. -/
theorem Peeked.slot_eq {c : Capacity} {r : UInt64} {s₀ s : Spsc T} (h₀ : Peeked c r s₀ s₀)
    (h : Peeked c r s₀ s) :
    s.ring.slots r.toNat = s₀.ring.slots r.toNat ∧
      s.log.waiting.head? = some (s₀.ring.slots r.toNat) := by
  have hhead : ∀ {t : Spsc T}, Peeked c r s₀ t →
      t.log.published[s₀.log.released.length]? = some (t.ring.slots r.toNat) := by
    intro t ht
    obtain ⟨q, hq, hheld, -⟩ := ht.consumer
    obtain ⟨rfl, hcache⟩ := (ht.inv.consumer q hq).held r hheld
    rw [← ht.released, ht.inv.ring.read]
    exact ht.inv.ring.cell _ le_rfl hcache.le
  have hstart := hhead h₀
  have hnow := hhead h
  have hlt := (List.getElem?_eq_some_iff.mp hstart).1
  obtain ⟨rest, hrest⟩ := h.published
  rw [← hrest, List.getElem?_append_left hlt, hstart] at hnow
  have heq := Option.some.inj hnow
  refine ⟨heq.symm, ?_⟩
  rw [Log.waiting, h.released, List.head?_drop, hhead h, heq]

/-- The store of a user's `pop()` releases the element behind the pointer. -/
theorem Peeked.popStore {c : Capacity} {r : UInt64} {s₀ s : Spsc T} (h₀ : Peeked c r s₀ s₀)
    (h : Peeked c r s₀ s) {q : Consumer T} {b : PopBy T} {i : UInt64}
    (hq : s.consumer = .up q) (hpc : q.pc = .popStore b i) :
    ∃ s', s.step c.slots (.consume .step) = some s' ∧
      s'.log = s.log.release [s₀.ring.slots r.toNat] ∧
      s'.ring = { s.ring with readIdx := nextIdx c.slots r } := by
  obtain ⟨q', hq', hheld, -⟩ := h.consumer
  obtain rfl : q = q' := by simpa [hq] using hq'
  have hinv := h.inv.consumer q hq
  have hloc := hinv.pc
  rw [hpc] at hloc
  obtain ⟨rfl, hcache, hcopied⟩ := hloc
  obtain ⟨rfl, -⟩ := hinv.held r hheld
  obtain ⟨hslot, -⟩ := h₀.slot_eq h
  have hx : b.copied.getD (s.ring.slots s.ring.readIdx.toNat) =
      s₀.ring.slots s.ring.readIdx.toNat := by
    cases hb : b.copied with
    | none => exact hslot
    | some x =>
      have hold := Consumer.oldest_slot h.inv.ring hcache.le
      have := List.prefix_of_prefix_length_le (hcopied x hb) hold (by simp)
      rw [List.prefix_append_right_inj] at this
      rw [← hslot]
      simpa using this
  have hact : q.act s.ring .step =
      some ({ s.ring with readIdx := nextIdx c.slots s.ring.readIdx }, q.released b.result,
        [s₀.ring.slots s.ring.readIdx.toNat]) := by
    simp only [Consumer.act, hpc, hx, hinv.capacity]
  exact ⟨_, by simp only [Spsc.step, hq, hact]; rfl, rfl, rfl⟩

/-- The contract of a zero-copy peek. From the state in which `front` returned the pointer
to slot `r`, through any steps but a consuming one of the consumer : the slot keeps its
element, which is the oldest one that waits; every further `front` returns the same
pointer; the assertion of `pop()` holds; and the store of `pop()` releases this element and
changes nothing but `readIdx`. -/
theorem peek_contract {L : Layout} {name : String} {requested : UInt64} {calls : CreateCalls}
    {g : Geometry} (hcreate : create L name requested calls = .ok g) (role : Role)
    (slots : ℕ → T) {s : Spsc T}
    (run : Reachable (step g.capacity) (created g.capacity role slots) s) {r : UInt64}
    (hfront : s.frontResult = some r) {s' : Spsc T}
    (rest : Reaches (step g.capacity) (fun s a => s.consumes a = false) s s') :
    s'.ring.slots r.toNat = s.ring.slots r.toNat ∧
    s'.log.waiting.head? = some (s.ring.slots r.toNat) ∧
    s'.log.released = s.log.released ∧
    ∃ q', s'.consumer = .up q' ∧
      (∀ p, q'.pc = .ready (some (.front p)) → p = some r) ∧
      (∀ b i, q'.pc = .popAssert b i → s'.ring.writeIdx ≠ i) ∧ q'.pc ≠ .aborted ∧
      (∀ b i, q'.pc = .popStore b i →
        ∃ s'', s'.step g.capacity (.consume .step) = some s'' ∧
          s''.log = s'.log.release [s.ring.slots r.toNat] ∧
          s''.ring = { s'.ring with readIdx := nextIdx g.capacity r }) := by
  have hinv := inv_of_reachable (c := .ofCreate hcreate) run
  obtain ⟨q, hq, hfront⟩ := frontResult_eq_some hfront
  have h₀ : Peeked (.ofCreate hcreate) r s s :=
    ⟨hinv, rfl, List.prefix_rfl, q, hq, frontHeld_of_reachable run q hq r hfront,
      by simp [hfront, PopPc.Peeking]⟩
  have h := h₀.of_reaches rest
  obtain ⟨hslot, hhead⟩ := h₀.slot_eq h
  obtain ⟨q', hq', hheld, hpc⟩ := h.consumer
  have hinv' := h.inv.consumer q' hq'
  refine ⟨hslot, hhead, h.released, q', hq', fun p hp => ?_, fun b i hi => ?_, fun habort => ?_,
    fun b i hi => h₀.popStore h hq' hi⟩
  · rw [hp] at hpc
    exact hpc p rfl
  · have hloc := hinv'.pc
    rw [hi] at hloc
    obtain ⟨rfl, hcache, -⟩ := hloc
    have hle := hcache.le
    rw [ne_comm, Ne, cell_eq_iff _ h.inv.ring.write h.inv.ring.read h.inv.ring.le h.inv.ring.room]
    omega
  · rw [habort] at hpc
    exact hpc

/-- Through a ring of three slots : a push, an attach and a `front`. -/
def peekStart : List (SpscAct ℕ) :=
  SpscAct.produce (.tryPush 7) :: List.replicate 4 (SpscAct.produce .step) ++
    List.replicate 2 SpscAct.attachConsumer ++
    SpscAct.consume .front :: List.replicate 2 (SpscAct.consume .step)

/-- The producer fills the ring and fails once more, the consumer copies and calls `pop()`. -/
def peekRest : List (SpscAct ℕ) :=
  SpscAct.produce (.tryPush 8) :: List.replicate 4 (SpscAct.produce .step) ++
    SpscAct.produce (.tryPush 9) :: List.replicate 3 (SpscAct.produce .step) ++
    SpscAct.consume .copyFront :: SpscAct.consume .pop :: List.replicate 2 (SpscAct.consume .step)

theorem peek_contract_peekRest :
    ∃ s s' : Spsc ℕ, Reachable (step 3) (created 3 .producer fun _ => 0) s ∧
      s.frontResult = some 0 ∧ Reaches (step 3) (fun s a => s.consumes a = false) s s' ∧
      s'.log.published = [7, 8] ∧ s'.log.waiting.head? = some (s.ring.slots 0) := by
  have hruns : ((exec (step 3) (fun _ _ => True) (created 3 .producer fun _ => 0) peekStart).bind
      fun s => (exec (step 3) (fun s a => s.consumes a = false) s peekRest).map fun s' =>
        (s.frontResult, s'.log.published)) = some (some 0, [7, 8]) := by decide +kernel
  obtain ⟨s, hs, hrest⟩ := Option.bind_eq_some_iff.mp hruns
  obtain ⟨s', hs', heq⟩ := Option.map_eq_some_iff.mp hrest
  have hfront : s.frontResult = some 0 := congrArg Prod.fst heq
  have run := Reaches.of_exec hs
  have rest := Reaches.of_exec hs'
  have hcreate : create messageLayout "/q" 2 ⟨none, none, none⟩ =
      .ok (createdGeometry messageLayout 3 400) := by decide
  exact ⟨s, s', run, hfront, rest, congrArg Prod.snd heq,
    (peek_contract hcreate _ _ run hfront rest).2.1⟩

end Spsc

end ShmSpsc
