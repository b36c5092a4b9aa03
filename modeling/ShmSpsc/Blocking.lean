import ShmSpsc.Bind
import ShmSpsc.Sequential

/-!
# The blocking calls

`push` and `pop(T&)` spin on `try_push` and `try_pop`, and look at the peer every
`peerCheckSpins` failures. `pushTurn` and `popTurn` are one iteration of their loops, with
the counter in 32-bit arithmetic; a loop runs until an iteration returns, taking what
`kill` answers in each iteration from a list.

With the peer dead or detached nothing but the loop itself takes steps.
`Solo.blocking_ends` : from any value of the counter it returns within `peerCheckSpins + 1`
iterations, and says truly whether there was room, or an element.
-/

namespace ShmSpsc

variable {T : Type*}

/-- The role at the other end. -/
def Role.peer : Role → Role
  | .producer => .consumer
  | .consumer => .producer

/-- `peerAlive()`, `pid` being what it loads from the peer's slot and `kill` the answer of
`kill(pid, 0)`. -/
def peerAlive (pid : ℤ) (kill : KillResult) : Bool :=
  if pid = 0 then true else processAlive kill pid

/-- The registered peer has detached or is dead. -/
theorem peerAlive_of_gone {pid : ℤ} {kill : KillResult}
    (hgone : pid = -1 ∨ 0 < pid ∧ kill = .errno esrch) : peerAlive pid kill = false := by
  rcases hgone with rfl | ⟨hpos, rfl⟩
  · rfl
  · have hne : pid ≠ 0 := by omega
    have hnot : ¬pid ≤ 0 := by omega
    simp [peerAlive, processAlive, hne, hnot]

/-- How an iteration of a blocking loop ends : it returns, or goes on with the counter of
the next one. -/
inductive Turn (R T : Type*) where
  | done (ret : R) (s : Solo T)
  | again (s : Solo T) (spins : UInt32)

/-- The end of an iteration whose attempt failed. The counter is set back before the loop
increments it, so the next iteration after a look at the peer starts with `1`. -/
def spinTurn {R : Type*} (peerCheckSpins : UInt32) (giveUp : Bool) (ret : R) (s : Solo T)
    (spins : UInt32) : Turn R T :=
  if spins ≥ peerCheckSpins then
    if giveUp then .done ret s else .again s (0 + 1)
  else .again s (spins + 1)

namespace Solo

/-- `empty()` -/
def empty (s : Solo T) : Bool := s.ring.writeIdx == s.ring.readIdx

/-- One iteration of `push(v, peerCheckSpins)`. -/
def pushTurn (peerCheckSpins : UInt32) (v : T) (pid : ℤ) (kill : KillResult) (s : Solo T)
    (spins : UInt32) : Turn Bool T :=
  match s.tryPush v with
  | (true, s') => .done true s'
  | (false, s') => spinTurn peerCheckSpins (!peerAlive pid kill) false s' spins

/-- One iteration of `pop(out, peerCheckSpins)`, none if an assertion fails. -/
def popTurn (peerCheckSpins : UInt32) (pid : ℤ) (kill : KillResult) (s : Solo T)
    (spins : UInt32) : Option (Turn (Option T) T) :=
  s.tryPop.map fun
    | (some x, s') => .done (some x) s'
    | (none, s') => spinTurn peerCheckSpins (!peerAlive pid kill && s'.empty) none s' spins

/-- `push(v, peerCheckSpins)`, one answer of `kill` for each iteration : none if it has not
returned by then. -/
def push (peerCheckSpins : UInt32) (v : T) (pid : ℤ) :
    List KillResult → Solo T → UInt32 → Option (Bool × Solo T)
  | [], _, _ => none
  | kill :: answers, s, spins =>
    match s.pushTurn peerCheckSpins v pid kill spins with
    | .done ok s' => some (ok, s')
    | .again s' spins' => push peerCheckSpins v pid answers s' spins'

/-- `pop(out, peerCheckSpins)` : the element it copied, if it did. -/
def popInto (peerCheckSpins : UInt32) (pid : ℤ) :
    List KillResult → Solo T → UInt32 → Option (Option T × Solo T)
  | [], _, _ => none
  | kill :: answers, s, spins =>
    (s.popTurn peerCheckSpins pid kill spins).bind fun
      | .done out s' => some (out, s')
      | .again s' spins' => popInto peerCheckSpins pid answers s' spins'

end Solo

/-! ## The counter -/

theorem toNat_spins_succ {peerCheckSpins spins : UInt32} (h : spins < peerCheckSpins) :
    (spins + 1).toNat = spins.toNat + 1 := by
  have hlt := UInt32.lt_iff_toNat_lt.mp h
  have := peerCheckSpins.toNat_lt
  rw [UInt32.toNat_add, UInt32.toNat_one]
  omega

/-- Below the threshold the counter counts without a wrap. At or above it the peer was
looked at in this very iteration, and the count starts again. -/
theorem spinTurn_again {R : Type*} {peerCheckSpins spins spins' : UInt32} {giveUp : Bool}
    {ret : R} {s s' : Solo T}
    (h : spinTurn peerCheckSpins giveUp ret s spins = .again s' spins') :
    spins < peerCheckSpins ∧ spins'.toNat = spins.toNat + 1 ∨
      peerCheckSpins ≤ spins ∧ giveUp = false ∧ spins' = 1 := by
  unfold spinTurn at h
  split_ifs at h with hspins hgive
  · obtain ⟨-, rfl⟩ := Turn.again.inj h
    exact .inr ⟨hspins, by simpa using hgive, rfl⟩
  · obtain ⟨-, rfl⟩ := Turn.again.inj h
    have hlt := UInt32.not_le.mp hspins
    exact .inl ⟨hlt, toNat_spins_succ hlt⟩

namespace Solo

variable {c : Capacity} {log : Log T} {s : Solo T} {pid : ℤ}

/-- `push` on a full ring, the peer gone. -/
theorem CanPush.push_of_full (peerCheckSpins : UInt32) (v : T)
    (hfull : c.slots.toNat - 1 - log.held = 0) :
    ∀ (answers : List KillResult) {s : Solo T} (spins : UInt32), s.CanPush c log →
      (∀ kill ∈ answers, peerAlive pid kill = false) →
      peerCheckSpins.toNat - spins.toNat + 1 ≤ answers.length →
      push peerCheckSpins v pid answers s spins = some (false, s.loadRead)
  | [], _, _, _, _, hlen => absurd hlen (Nat.not_succ_le_zero _)
  | kill :: answers, s, spins, h, hgone, hlen => by
    simp only [push, pushTurn, h.tryPush_of_full v hfull, hgone kill (by simp), spinTurn]
    by_cases hspins : spins ≥ peerCheckSpins
    · simp [hspins]
    · have hlt := UInt32.not_le.mp hspins
      have hnat := UInt32.lt_iff_toNat_lt.mp hlt
      rw [List.length_cons] at hlen
      simp only [if_neg hspins]
      exact CanPush.push_of_full peerCheckSpins v hfull answers (spins + 1) h.loadRead
        (fun k hk => hgone k (by simp [hk])) (by rw [toNat_spins_succ hlt]; omega)

/-- `pop` on an empty ring, the peer gone. -/
theorem CanPop.popInto_of_empty (peerCheckSpins : UInt32) (hempty : log.held = 0) :
    ∀ (answers : List KillResult) {s : Solo T} (spins : UInt32), s.CanPop c log →
      (∀ kill ∈ answers, peerAlive pid kill = false) →
      peerCheckSpins.toNat - spins.toNat + 1 ≤ answers.length →
      popInto peerCheckSpins pid answers s spins = some (none, s.loadWrite)
  | [], _, _, _, _, hlen => absurd hlen (Nat.not_succ_le_zero _)
  | kill :: answers, s, spins, h, hgone, hlen => by
    have hidx : s.loadWrite.empty = true := by
      have hiff := cell_eq_iff c h.ring.write h.ring.read h.ring.le h.ring.room
      have hle := h.ring.le
      rw [Log.held] at hempty
      exact beq_iff_eq.mpr (hiff.mpr (by omega)).symm
    simp only [popInto, popTurn, h.tryPop_of_empty hempty, hgone kill (by simp), spinTurn,
      hidx, Option.map_some, Option.bind_some]
    by_cases hspins : spins ≥ peerCheckSpins
    · simp [hspins]
    · have hlt := UInt32.not_le.mp hspins
      have hnat := UInt32.lt_iff_toNat_lt.mp hlt
      rw [List.length_cons] at hlen
      simp only [if_neg hspins]
      exact CanPop.popInto_of_empty peerCheckSpins hempty answers (spins + 1) h.loadWrite
        (fun k hk => hgone k (by simp [hk])) (by rw [toNat_spins_succ hlt]; omega)

/-- `push` with a free slot, in its first iteration. -/
theorem CanPush.push_of_room (h : s.CanPush c log) (peerCheckSpins spins : UInt32) (v : T)
    (hroom : 0 < c.slots.toNat - 1 - log.held) (kill : KillResult) (answers : List KillResult) :
    push peerCheckSpins v pid (kill :: answers) s spins = some (true, (s.refreshRead 1).put v) := by
  simp only [push, pushTurn, h.tryPush_of_room v hroom]

/-- `pop` with an element there, in its first iteration. -/
theorem CanPop.popInto_of_held (h : s.CanPop c log) (peerCheckSpins spins : UInt32)
    (hheld : 0 < log.held) (kill : KillResult) (answers : List KillResult) :
    popInto peerCheckSpins pid (kill :: answers) s spins =
      some (some (s.ring.slots s.ring.readIdx.toNat), (s.refreshWrite 1).take) := by
  simp only [popInto, popTurn, h.tryPop_of_held hheld, Option.map_some, Option.bind_some]

/-- The counter of `push` between two iterations. -/
theorem pushTurn_again {peerCheckSpins spins spins' : UInt32} {v : T} {kill : KillResult}
    {s s' : Solo T} (h : s.pushTurn peerCheckSpins v pid kill spins = .again s' spins') :
    spins < peerCheckSpins ∧ spins'.toNat = spins.toNat + 1 ∨
      peerCheckSpins ≤ spins ∧ peerAlive pid kill = true ∧ spins' = 1 := by
  simp only [pushTurn] at h
  split at h
  · simp at h
  · simpa using spinTurn_again h

/-- The counter of `pop` between two iterations. -/
theorem popTurn_again {peerCheckSpins spins spins' : UInt32} {kill : KillResult} {s s' : Solo T}
    (h : s.popTurn peerCheckSpins pid kill spins = some (.again s' spins')) :
    spins < peerCheckSpins ∧ spins'.toNat = spins.toNat + 1 ∨
      peerCheckSpins ≤ spins ∧ (peerAlive pid kill = false → s'.empty = false) ∧ spins' = 1 := by
  obtain ⟨⟨out, s''⟩, -, hturn⟩ := Option.map_eq_some_iff.mp h
  cases out with
  | some x => simp at hturn
  | none =>
    have hs : s'' = s' := by
      simp only [spinTurn] at hturn
      split_ifs at hturn
      · exact (Turn.again.inj hturn).1
      · exact (Turn.again.inj hturn).1
    simpa [hs] using spinTurn_again hturn

/-- A blocking call whose registered peer is dead or detached ends within
`peerCheckSpins + 1` iterations, from any value of its counter. `push` has then published
its element exactly once if there was room, and else stored nothing; `pop` has taken the
oldest element if there was one, and else stored nothing. In no iteration does the counter
wrap past the look at the peer. -/
theorem blocking_ends (hcap : s.handle.capacity = c.slots) (hring : s.ring.Holds c log)
    (peerCheckSpins spins : UInt32) {answers : List KillResult}
    (hlen : peerCheckSpins.toNat + 1 ≤ answers.length)
    (hgone : pid = -1 ∨ 0 < pid ∧ ∀ kill ∈ answers, kill = .errno esrch) :
    (ReadCache c log s.handle.readIdxCache 0 → ∀ v : T,
      ∃ ok s', push peerCheckSpins v pid answers s spins = some (ok, s') ∧
        (ok = true ↔ (s.ring.contents c.slots).length < (capacityOf c.slots).toNat) ∧
        (ok = true → s'.ring.contents c.slots = s.ring.contents c.slots ++ [v]) ∧
        (ok = false → s'.ring = s.ring)) ∧
    (WriteCache c log s.handle.writeIdxCache 0 →
      ∃ out s', popInto peerCheckSpins pid answers s spins = some (out, s') ∧
        out = (s.ring.contents c.slots).head? ∧
        (∀ x, out = some x → s.ring.contents c.slots = x :: s'.ring.contents c.slots) ∧
        (out = none → s'.ring = s.ring)) ∧
    (∀ (v : T) (kill : KillResult) (s' : Solo T) (spins' : UInt32),
      s.pushTurn peerCheckSpins v pid kill spins = .again s' spins' →
        spins < peerCheckSpins ∧ spins'.toNat = spins.toNat + 1 ∨
          peerCheckSpins ≤ spins ∧ peerAlive pid kill = true ∧ spins' = 1) ∧
    (∀ (kill : KillResult) (s' : Solo T) (spins' : UInt32),
      s.popTurn peerCheckSpins pid kill spins = some (.again s' spins') →
        spins < peerCheckSpins ∧ spins'.toNat = spins.toNat + 1 ∨
          peerCheckSpins ≤ spins ∧ (peerAlive pid kill = false → s'.empty = false) ∧
            spins' = 1) := by
  have hdead : ∀ kill ∈ answers, peerAlive pid kill = false := by
    intro kill hkill
    refine peerAlive_of_gone ?_
    exact hgone.imp_right fun h => ⟨h.1, h.2 kill hkill⟩
  obtain ⟨kill, answers, rfl⟩ := List.exists_cons_of_length_pos (by omega : 0 < answers.length)
  rw [hring.contents_eq, log.length_waiting, toNat_capacityOf]
  refine ⟨fun hcache v => ?_, fun hcache => ?_, fun v kill s' spins' => pushTurn_again,
    fun kill s' spins' => popTurn_again⟩
  · have h : s.CanPush c log := ⟨hcap, hring, hcache⟩
    rcases Nat.eq_zero_or_pos (c.slots.toNat - 1 - log.held) with hfull | hroom
    · refine ⟨false, s.loadRead, ?_, by simp; omega, by simp, fun _ => rfl⟩
      exact CanPush.push_of_full peerCheckSpins v hfull _ spins h hdead (by omega)
    · have hput := (h.refreshRead 1).put v (h.refreshRead_free hroom)
      refine ⟨true, _, h.push_of_room peerCheckSpins spins v hroom kill answers, by simp; omega,
        fun _ => ?_, by simp⟩
      rw [hput.ring.contents_eq, Log.waiting, Log.publish_published, Log.publish_released,
        List.drop_append_of_le_length h.ring.le, Log.waiting]
  · have h : s.CanPop c log := ⟨hcap, hring, hcache⟩
    rcases Nat.eq_zero_or_pos log.held with hempty | hheld
    · refine ⟨none, s.loadWrite, ?_, by rw [log.waiting_eq_nil hempty]; rfl, by simp,
        fun _ => rfl⟩
      exact CanPop.popInto_of_empty peerCheckSpins hempty _ spins h hdead (by omega)
    · have htake := (h.refreshWrite 1).take (h.refreshWrite_used hheld)
      have hwaiting := h.waiting_eq hheld
      rw [refreshWrite_ring] at htake
      refine ⟨_, _, h.popInto_of_held peerCheckSpins spins hheld kill answers, ?_, ?_, by simp⟩
      · rw [hwaiting]
        rfl
      · rintro x ⟨rfl⟩
        rw [htake.ring.contents_eq]
        exact hwaiting

/-- Three slots, two of them taken. -/
def full : Solo ℕ := ⟨⟨2, 0, fun i => i + 7⟩, ⟨3, 0, 1⟩⟩

/-- Its peer detached, `push` gives up in its second iteration and `pop` takes `7`. -/
theorem blocking_ends_full :
    (∃ s', push 1 9 (-1) [.ok, .ok] full 0 = some (false, s') ∧ s'.ring = full.ring) ∧
      ∃ s', popInto 1 (-1) [.ok, .ok] full 0 = some (some 7, s') ∧
        full.ring.contents 3 = 7 :: s'.ring.contents 3 := by
  have hring : full.ring.Holds ⟨3, by decide, by decide⟩ ⟨[7, 8], []⟩ :=
    ⟨rfl, rfl, ⟨[7, 8], rfl⟩, by decide, fun i _ hhi => by
      obtain rfl | rfl : i = 0 ∨ i = 1 := by simp at hhi; omega
      · rfl
      · rfl⟩
  have hlen : (1 : UInt32).toNat + 1 ≤ [KillResult.ok, .ok].length := by decide
  obtain ⟨hpush, hpop, -⟩ := blocking_ends rfl hring 1 0 hlen (.inl (Eq.refl (-1)))
  obtain ⟨ok, s', heq, hok, -, hfalse⟩ := hpush ⟨0, rfl, by decide, by decide⟩ 9
  obtain ⟨out, s'', heq', hout, hsome, -⟩ := hpop ⟨1, rfl, by decide, by decide⟩
  have hok' : ok = false := by
    cases ok with
    | false => rfl
    | true => exact absurd (hok.mp rfl) (by decide)
  have hout' : out = some 7 := hout.trans (by decide)
  subst hok' hout'
  exact ⟨⟨s', heq, hfalse rfl⟩, s'', heq', hsome 7 rfl⟩

end Solo

end ShmSpsc
