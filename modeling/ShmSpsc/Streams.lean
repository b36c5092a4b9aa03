import ShmSpsc.Demo
import Mathlib.Data.Finset.Card

/-!
# What the producers of the demo send

`Streams` says of the published messages, each with its sender, that every sender's are in one
piece and count from `0`. `Streams.batch_eq` is the count that the consumer then arrives at :
one error for each sender after the first.

`Sends` is what holds of the producers' loops along every run. A sender has published the
messages that it has counted, and one more if its last attempt has succeeded and it has not seen
that yet; who is not the last sender has died or has left its loop.
-/

namespace ShmSpsc

open Transition

/-- The message is one that `makeMessage` makes. -/
def Message.Made (m : Message) : Prop := ∃ t, m = makeMessage m.seq t

theorem Message.Made.checksum {m : Message} (h : m.Made) : m.checksum = checksumOf m := by
  obtain ⟨t, ht⟩ := h
  rw [ht]
  exact checksum_makeMessage _ t

theorem seq_makeMessage (seq t : UInt64) : (makeMessage seq t).seq = seq := rfl

theorem made_makeMessage (seq t : UInt64) : (makeMessage seq t).Made := ⟨t, rfl⟩

/-! ## One piece for each sender -/

/-- Each sender's messages are in one piece, and count from `0`. -/
inductive Streams : List (ℤ × Message) → Prop
  | nil : Streams []
  | same {P : List (ℤ × Message)} {p : ℤ} {m v : Message} (run : Streams (P ++ [(p, m)]))
      (hv : v.Made) (hseq : v.seq = m.seq + 1) : Streams (P ++ [(p, m)] ++ [(p, v)])
  | fresh {P : List (ℤ × Message)} {p : ℤ} {v : Message} (run : Streams P)
      (hnew : ∀ e ∈ P, e.1 ≠ p) (hlast : ∀ e, P.getLast? = some e → e.2.seq + 1 ≠ 0)
      (hv : v.Made) (hseq : v.seq = 0) : Streams (P ++ [(p, v)])

/-- How many have sent something. -/
def senders (P : List (ℤ × Message)) : ℕ := (P.map Prod.fst).toFinset.card

namespace Streams

variable {P Q : List (ℤ × Message)}

theorem of_prefix (h : Streams P) (hQ : Q <+: P) : Streams Q := by
  induction h with
  | nil =>
    rw [List.prefix_nil.mp hQ]
    exact .nil
  | same run hv hseq ih =>
    rcases List.prefix_concat_iff.mp hQ with rfl | hQ
    · exact .same run hv hseq
    · exact ih hQ
  | fresh run hnew hlast hv hseq ih =>
    rcases List.prefix_concat_iff.mp hQ with rfl | hQ
    · exact .fresh run hnew hlast hv hseq
    · exact ih hQ

/-- The next sequence number that the consumer expects. -/
def expected (P : List (ℤ × Message)) : UInt64 :=
  match P.getLast? with
  | some e => e.2.seq + 1
  | none => 0

@[simp] theorem expected_concat (P : List (ℤ × Message)) (e : ℤ × Message) :
    expected (P ++ [e]) = e.2.seq + 1 := by
  simp [expected]

end Streams

namespace Tally

theorem check_ok {t : Tally} {m : Message} (hm : m.Made) (hseq : m.seq = t.expect) :
    t.check m = { t with expect := m.seq + 1 } := by
  rw [check, if_neg, hseq]
  rintro (hne | hne)
  · exact hne hseq
  · exact hne hm.checksum

theorem check_error {t : Tally} {m : Message} (hseq : m.seq ≠ t.expect) :
    t.check m = { t with errors := t.errors + 1, expect := m.seq + 1 } := by
  rw [check, if_pos (.inl hseq)]

/-- The checks leave `received` alone. -/
theorem check_received (t : Tally) (r : UInt64) (m : Message) :
    { t with received := r }.check m = { t.check m with received := r } := by
  unfold check
  split_ifs <;> rfl

theorem foldl_check_received (r : UInt64) (ms : List Message) (t : Tally) :
    ms.foldl check { t with received := r } = { ms.foldl check t with received := r } := by
  induction ms generalizing t with
  | nil => rfl
  | cons m ms ih => rw [List.foldl_cons, List.foldl_cons, check_received, ih]

/-- One batch after the other. -/
theorem batch_append (t : Tally) (xs ys : List Message) :
    (t.batch xs).batch ys = t.batch (xs ++ ys) := by
  have hsame (ms : List Message) (t : Tally) : (ms.foldl check t).received = t.received := by
    have hkept := congrArg Tally.received (foldl_check_received t.received ms t)
    exact hkept
  simp only [batch, foldl_check_received, List.foldl_append, hsame, List.length_append,
    UInt64.ofNat_add, UInt64.add_assoc]

theorem batch_nil (t : Tally) : t.batch [] = t := by
  simp [batch]

end Tally

/-- What the consumer counts : every message, and an error for each sender after the first. -/
theorem Streams.batch_eq {P : List (ℤ × Message)} (h : Streams P) :
    Tally.start.batch (P.map Prod.snd) =
      ⟨.ofNat P.length, expected P, .ofNat (senders P - 1)⟩ := by
  have concat : ∀ (P : List (ℤ × Message)) (e : ℤ × Message) (r : UInt64) (k : ℕ),
      Tally.start.batch (P.map Prod.snd) = ⟨.ofNat P.length, expected P, r⟩ →
      Tally.check ⟨.ofNat P.length, expected P, r⟩ e.2 = ⟨.ofNat P.length, e.2.seq + 1, .ofNat k⟩ →
      senders (P ++ [e]) - 1 = k →
      Tally.start.batch ((P ++ [e]).map Prod.snd) =
        ⟨.ofNat (P ++ [e]).length, expected (P ++ [e]), .ofNat (senders (P ++ [e]) - 1)⟩ := by
    intro P e r k hP hcheck hk
    rw [List.map_append, ← Tally.batch_append, hP, expected_concat, hk]
    simp only [Tally.batch, List.map_cons, List.map_nil, List.foldl_cons, List.foldl_nil, hcheck,
      List.length_append, List.length_singleton, UInt64.ofNat_add]
  induction h with
  | nil => rfl
  | @same P p m v run hv hseq ih =>
    have hsenders : senders (P ++ [(p, m)] ++ [(p, v)]) = senders (P ++ [(p, m)]) := by
      simp [senders]
    refine concat _ (p, v) _ (senders (P ++ [(p, m)]) - 1) ih ?_ (by rw [hsenders])
    rw [expected_concat, Tally.check_ok hv hseq]
  | @fresh P p v run hnew hlast hv hseq ih =>
    have hsenders : senders (P ++ [(p, v)]) = senders P + 1 := by
      have hnot : p ∉ (P.map Prod.fst).toFinset := by
        simp only [List.mem_toFinset, List.mem_map, not_exists, not_and]
        exact hnew
      simp only [senders, List.map_append, List.map_cons, List.map_nil, List.toFinset_append,
        List.toFinset_cons, List.toFinset_nil]
      rw [Finset.union_comm, Finset.insert_union, Finset.empty_union,
        Finset.card_insert_of_notMem hnot]
    rcases List.eq_nil_or_concat P with rfl | ⟨P', e, rfl⟩
    · refine concat [] (p, v) _ 0 ih ?_ (by rw [hsenders]; rfl)
      exact Tally.check_ok hv hseq
    · rw [List.concat_eq_append] at *
      have hone : senders (P' ++ [e]) ≠ 0 := by
        simp [senders]
      refine concat _ (p, v) _ (senders (P' ++ [e])) ih ?_ (by rw [hsenders]; rfl)
      rw [Tally.check_error]
      · have hk : UInt64.ofNat (senders (P' ++ [e])) =
            UInt64.ofNat (senders (P' ++ [e]) - 1) + 1 := by
          rw [← UInt64.ofNat_one, ← UInt64.ofNat_add, Nat.sub_add_cancel (by omega)]
        rw [hk]
      · rw [hseq, expected_concat]
        exact (hlast e (by simp)).symm

/-! ## A `try_push` under way -/

/-- The producer is in the `try_push` of `v`, or has just returned from it. -/
def PushPc.Tries (v : Message) : PushPc Message → Prop
  | .tryPushLoad x => x = v
  | .tryPushTest x _ _ => x = v
  | .tryPushRefresh x _ _ => x = v
  | .tryPushCopy x _ _ => x = v
  | .tryPushStore x _ _ => x = v
  | .ready ret => ∃ ok, ret = some (.tryPush ok)
  | _ => False

namespace Producer

variable {w w' : Producer Message} {ring ring' : Ring Message} {xs : List Message} {v : Message}

/-- A `try_push` publishes its element with its success. -/
theorem tries_step (hw : w.pc.Tries v) (h : w.act ring .step = some (ring', w', xs)) :
    w.pushed = none ∧ w'.pc.Tries v ∧
      (xs = [] ∧ w'.pushed ≠ some true ∨ xs = [v] ∧ w'.pushed = some true) := by
  obtain ⟨handle, pc⟩ := w
  rcases pc with ret | x | ⟨x, wi, nx⟩ | ⟨x, wi, nx⟩ | ⟨x, wi, nx⟩ | ⟨x, wi, nx⟩ | _ | _ | _ | _ | _
  · cases h
  · obtain rfl : x = v := hw
    cases h
    exact ⟨rfl, rfl, .inl ⟨rfl, by rintro ⟨⟩⟩⟩
  · obtain rfl : x = v := hw
    simp only [act] at h
    split_ifs at h <;> cases h <;> exact ⟨rfl, rfl, .inl ⟨rfl, by rintro ⟨⟩⟩⟩
  · obtain rfl : x = v := hw
    simp only [act] at h
    split_ifs at h <;> cases h
    · exact ⟨rfl, ⟨false, rfl⟩, .inl ⟨rfl, by rintro ⟨⟩⟩⟩
    · exact ⟨rfl, rfl, .inl ⟨rfl, by rintro ⟨⟩⟩⟩
  · obtain rfl : x = v := hw
    cases h
    exact ⟨rfl, rfl, .inl ⟨rfl, by rintro ⟨⟩⟩⟩
  · obtain rfl : x = v := hw
    cases h
    exact ⟨rfl, ⟨true, rfl⟩, .inr ⟨rfl, rfl⟩⟩
  all_goals exact hw.elim

/-- The call publishes nothing. -/
theorem tries_call (h : w.act ring (.tryPush v) = some (ring', w', xs)) :
    w'.pc.Tries v ∧ w'.pushed = none ∧ xs = [] := by
  obtain ⟨handle, pc⟩ := w
  simp only [act] at h
  split at h
  · cases h
    exact ⟨rfl, rfl, rfl⟩
  · cases h

theorem act_of_idle (hw : Worker.idle .producer w) : w.act ring .step = none := by
  simp only [Worker.idle] at hw
  split at hw
  next hpc => rw [act, hpc]
  next => cases hw

end Producer

/-! ## The producers' loops -/

/-- A handle that becomes bound is between two calls. -/
theorem Shm.idle_of_bound {T : Type*} {S : Setup} {s s' : Shm T} {a : ShmAct T} {role : Role}
    {p : ℤ} {w : Worker T role} (h : step S s a = some s')
    (hbefore : (s.endpoint role p).isBound = false) (hafter : s'.endpoint role p = .bound w) :
    Worker.idle role w := by
  have set_ {t : Shm T} {role' : Role} {p' : ℤ} {e : Endpoint (Worker T role')}
      (ht : t.endpoint = s.endpoint)
      (hself : (s.endpoint role' p').isBound = false → ∀ w, e = .bound w → Worker.idle role' w)
      (hafter : (t.set role' p' e).endpoint role p = .bound w) : Worker.idle role w := by
    by_cases hrole : role = role'
    · subst hrole
      by_cases hp : p = p'
      · subst hp
        rw [endpoint_set_self] at hafter
        exact hself hbefore w hafter
      · rw [endpoint_set_of_ne_pid hp, ht] at hafter
        rw [hafter] at hbefore
        cases hbefore
    · rw [endpoint_set_of_ne_role hrole, ht] at hafter
      rw [hafter] at hbefore
      cases hbefore
  have fresh {π : Type} {role' : Role} {wrap : π → Endpoint (Worker T role')}
      (hwrap : ∀ x w, wrap x ≠ .bound w) (out : Outcome π) (w : Worker T role')
      (hout : out.endpoint role' wrap = .bound w) : Worker.idle role' w := by
    rcases out with x | handle | e
    · exact absurd hout (hwrap x w)
    · obtain rfl := Endpoint.bound.inj hout
      rcases role' with _ | _ <;> rfl
    · cases hout
  cases steps_of_step h with
  | create hat alive answers => exact set_ rfl (fun _ => fresh (by simp) _) hafter
  | attach hat alive => exact set_ rfl (by simp) hafter
  | attachStep hat alive answers => exact set_ rfl (fun _ => fresh (by simp) _) hafter
  | produce hat alive act =>
    refine set_ rfl (fun hnot => ?_) hafter
    rw [hat] at hnot
    cases hnot
  | consume hat alive act =>
    refine set_ rfl (fun hnot => ?_) hafter
    rw [hat] at hnot
    cases hnot
  | detach hat alive idle => exact set_ rfl (by simp) hafter
  | die alive =>
    rw [show (s.died _).endpoint role p = s.endpoint role p from rfl] at hafter
    rw [hafter] at hbefore
    cases hbefore

theorem Shm.endpoint_of_detach {T : Type*} {S : Setup} {s s' : Shm T} {role : Role} {p : ℤ}
    (h : step S s (.detach role p) = some s') : s'.endpoint role p = .absent none := by
  cases steps_of_step h with
  | detach hat alive idle => exact endpoint_set_self

/-- A handle that is bound after a step of others was so before, or is between two calls. -/
theorem Shm.idle_or_bound_of_step {T : Type*} {S : Setup} {s s' : Shm T} {a : ShmAct T}
    {role : Role} {p : ℤ} {w : Worker T role} (h : step S s a = some s')
    (hafter : s'.endpoint role p = .bound w)
    (hproduce : role = .producer → ∀ act, a ≠ .produce p act)
    (hconsume : role = .consumer → ∀ act, a ≠ .consume p act) :
    Worker.idle role w ∨ s.endpoint role p = .bound w := by
  rcases hbefore : (s.endpoint role p).isBound with _ | _
  · exact .inl (idle_of_bound h hbefore hafter)
  · by_cases hdetach : a = .detach role p
    · subst hdetach
      rw [endpoint_of_detach h] at hafter
      cases hafter
    · rw [endpoint_of_step h hbefore hdetach hproduce hconsume] at hafter
      exact .inr hafter

namespace Demo

variable {S : Setup} {shm shm' : Shm Message} {p : ℤ} {pc : SendPc} {limit : UInt64} {v : Message}

/-- The last attempt of `p` has succeeded, and its loop has not seen that yet. -/
def landed (shm : Shm Message) (p : ℤ) (pc : SendPc) : ℕ :=
  match pc, shm.endpoint .producer p with
  | .trying _ _ _, .bound w => if Producer.pushed w = some true then 1 else 0
  | _, _ => 0

/-- How many messages `p` has published. -/
def count (shm : Shm Message) (p : ℤ) (pc : SendPc) : ℕ := pc.sent.toNat + landed shm p pc

/-- The sequence numbers of what `p` has published. -/
def sentBy (shm : Shm Message) (p : ℤ) : List UInt64 :=
  (shm.published.filter (·.1 = p)).map fun e => e.2.seq

/-- What holds of a producer `p` that is at `pc` and is to send `limit` messages. -/
structure Sender (limit : UInt64) (shm : Shm Message) (p : ℤ) (pc : SendPc) : Prop where
  ready : ∀ w, shm.endpoint .producer p = .bound w → pc.trial = none → Worker.idle .producer w
  bound : pc.inside = true → (shm.endpoint .producer p).isBound = true
  tries : ∀ w v, shm.endpoint .producer p = .bound w → pc.trial = some v → PushPc.Tries v w.pc
  value : ∀ v, pc.pushing = some v → pc.sent < limit ∧ ∃ t, v = makeMessage pc.sent t
  le : pc.sent ≤ limit
  sent : sentBy shm p = (List.range (count shm p pc)).map UInt64.ofNat

theorem inside_of_trial (h : pc.trial = some v) : pc.inside = true := by
  rcases pc with _ | _ | _ | _ | _ | _ | _ <;> first | rfl | cases h

theorem isStopped_of_inside (h : pc.inside = true) : pc.isStopped = false := by
  rcases pc with _ | _ | _ | _ | _ | _ | _ <;> first | rfl | cases h

theorem pushing_of_trial (h : pc.trial = some v) : pc.pushing = some v := by
  rcases pc with _ | _ | _ | _ | _ | _ | _ <;> first | exact h | cases h

theorem trying_of_trial (h : pc.trial = some v) : ∃ sent spins, pc = .trying sent v spins := by
  rcases pc with _ | _ | _ | ⟨sent, x, spins⟩ | _ | _ | _
  case trying =>
    obtain rfl := Option.some.inj h
    exact ⟨sent, spins, rfl⟩
  all_goals cases h

theorem landed_le (shm : Shm Message) (p : ℤ) (pc : SendPc) : landed shm p pc ≤ 1 := by
  unfold landed
  split
  · split_ifs <;> omega
  · exact Nat.zero_le 1

theorem landed_of_trial (h : pc.trial = none) : landed shm p pc = 0 := by
  rcases pc with _ | _ | _ | _ | _ | _ | _ <;> first | rfl | cases h

namespace Sender

/-- What a step of others leaves. -/
theorem frame (h : Sender limit shm p pc)
    (hend : shm'.endpoint .producer p = shm.endpoint .producer p)
    (hsent : sentBy shm' p = sentBy shm p) : Sender limit shm' p pc := by
  refine ⟨?_, ?_, ?_, h.value, h.le, ?_⟩
  · rw [hend]
    exact h.ready
  · rw [hend]
    exact h.bound
  · rw [hend]
    exact h.tries
  · have hlanded : landed shm' p pc = landed shm p pc := by simp only [landed, hend]
    rw [hsent, h.sent, count, count, hlanded]

/-- No more is published than is to be sent. -/
theorem count_le (h : Sender limit shm p pc) : count shm p pc ≤ limit.toNat := by
  have hle := landed_le shm p pc
  rw [count]
  rcases htrial : pc.trial with _ | v
  · rw [landed_of_trial htrial]
    exact UInt64.le_iff_toNat_le.mp h.le
  · have hlt := (h.value v (pushing_of_trial htrial)).1
    rw [UInt64.lt_iff_toNat_lt] at hlt
    omega

theorem count_lt (h : Sender limit shm p pc) : count shm p pc < 2 ^ 64 :=
  h.count_le.trans_lt limit.toNat_lt

/-- Who has sent something and is not out of its loop is attached. -/
theorem isBound_of_mem (h : Sender limit shm p pc) {m : Message} (hm : (p, m) ∈ shm.published)
    (hstopped : pc.isStopped = false) : (shm.endpoint .producer p).isBound = true := by
  refine h.bound ?_
  rcases pc with _ | _ | _ | _ | _ | _ | _
  case idle =>
    have hmem : m.seq ∈ sentBy shm p :=
      List.mem_map.mpr ⟨(p, m), List.mem_filter.mpr ⟨hm, by simp⟩, rfl⟩
    rw [h.sent] at hmem
    simp [count, landed, SendPc.sent] at hmem
  case stopped => cases hstopped
  all_goals rfl

/-- A move of the loop between two attempts. -/
theorem move {pc' : SendPc} (h : Sender limit shm p pc)
    (hidle : ∀ w, shm.endpoint .producer p = .bound w → Worker.idle .producer w)
    (hbound : pc'.inside = true → (shm.endpoint .producer p).isBound = true)
    (htrial : pc'.trial = none)
    (hvalue : ∀ v, pc'.pushing = some v → pc'.sent < limit ∧ ∃ t, v = makeMessage pc'.sent t)
    (hle : pc'.sent ≤ limit) (hcount : pc'.sent.toNat = count shm p pc) :
    Sender limit shm p pc' := by
  refine ⟨fun w hw _ => hidle w hw, hbound, fun w v _ hv => ?_, hvalue, hle, ?_⟩
  · rw [htrial] at hv
    cases hv
  · rw [h.sent, ← hcount, count, landed_of_trial htrial, Nat.add_zero]

end Sender

/-- `p` has died, or left its loop. -/
def Retired (shm : Shm Message) (sender : ℤ → SendPc) (p : ℤ) : Prop :=
  shm.dead p = true ∨ (sender p).isStopped = true

/-- What holds of the producers' loops. -/
structure Sends (total : ℤ → UInt64) (shm : Shm Message) (sender : ℤ → SendPc) : Prop where
  each : ∀ p, Sender (total p) shm p (sender p)
  pos : ∀ e ∈ shm.published, 0 < e.1
  retired : ∀ e ∈ shm.published, (∀ l, shm.published.getLast? = some l → l.1 ≠ e.1) →
    Retired shm sender e.1
  streams : Streams shm.published

variable {total : ℤ → UInt64} {sender : ℤ → SendPc}

theorem sends_opened (S : Setup) (total : ℤ → UInt64) (slots : ℕ → Message) :
    Sends total (.opened S slots) fun _ => .idle := by
  have hunbound : ∀ p w, (Shm.opened S slots).endpoint .producer p ≠ .bound w := by
    intro p w
    simp only [Shm.opened]
    split_ifs <;> simp
  refine ⟨fun p => ?_, by rintro _ ⟨⟩, by rintro _ ⟨⟩, .nil⟩
  exact ⟨fun w hw => absurd hw (hunbound p w), by rintro ⟨⟩, by rintro _ _ _ ⟨⟩, by rintro _ ⟨⟩,
    UInt64.zero_le, rfl⟩

/-- A move of one loop. -/
theorem Sends.update (h : Sends total shm sender) (hlive : (sender p).isStopped = false)
    (hpc : Sender (total p) shm p pc) : Sends total shm (Function.update sender p pc) := by
  refine ⟨fun q => ?_, h.pos, fun e he hlast => ?_, h.streams⟩
  · by_cases hq : q = p
    · subst hq
      rw [Function.update_self]
      exact hpc
    · rw [Function.update_of_ne hq]
      exact h.each q
  · refine (h.retired e he hlast).imp_right fun hstopped => ?_
    have hne : e.1 ≠ p := by
      intro heq
      rw [heq, hlive] at hstopped
      cases hstopped
    rw [Function.update_of_ne hne]
    exact hstopped

/-- A step of the queue that publishes nothing. -/
theorem sends_quiet {b : ShmAct Message} (h : Sends total shm sender)
    (hstep : shm.step S b = some shm') (hproduce : ∀ p act, b ≠ .produce p act)
    (hdetach : ∀ p, b = .detach .producer p → (sender p).isStopped = true) :
    Sends total shm' sender := by
  have hpublished := Shm.published_of_step hstep hproduce
  refine ⟨fun p => ?_, ?_, fun e he hlast => ?_, ?_⟩
  · have hsent : sentBy shm' p = sentBy shm p := by rw [sentBy, sentBy, hpublished]
    have hold := h.each p
    by_cases hsame : shm'.endpoint .producer p = shm.endpoint .producer p
    · exact hold.frame hsame hsent
    · -- the endpoint was not bound, or detaches after its loop
      have hnot : (sender p).inside = false := by
        by_contra hin
        rw [Bool.not_eq_false] at hin
        refine hsame (Shm.endpoint_of_step hstep (hold.bound hin) ?_ (fun _ => hproduce p)
          (by simp))
        intro hb
        exact absurd (isStopped_of_inside hin) (by rw [hdetach p hb]; simp)
      have htrial : (sender p).trial = none := by
        by_contra hsome
        obtain ⟨v, hv⟩ := Option.ne_none_iff_exists'.mp hsome
        rw [inside_of_trial hv] at hnot
        cases hnot
      refine ⟨fun w hw _ => ?_, fun hin => ?_, fun w v _ hv => ?_, hold.value, hold.le, ?_⟩
      · rcases Shm.idle_or_bound_of_step hstep hw (fun _ => hproduce p) (by simp) with
          hidle | hbefore
        · exact hidle
        · exact hold.ready w hbefore htrial
      · rw [hnot] at hin
        cases hin
      · rw [htrial] at hv
        cases hv
      · rw [hsent, hold.sent, count, count, landed_of_trial htrial, landed_of_trial htrial]
  · rw [hpublished]
    exact h.pos
  · rw [hpublished] at he hlast
    exact (h.retired e he hlast).imp_left (Shm.dead_of_step hstep)
  · rw [hpublished]
    exact h.streams

/-- The last message is the last one of its sender. -/
theorem Sends.seq_last (h : Sends total shm sender) {P : List (ℤ × Message)} {e : ℤ × Message}
    (hpublished : shm.published = P ++ [e]) :
    0 < count shm e.1 (sender e.1) ∧ e.2.seq + 1 = .ofNat (count shm e.1 (sender e.1)) := by
  have hsent := (h.each e.1).sent
  rw [sentBy, hpublished, List.filter_append, List.map_append] at hsent
  simp only [decide_true, List.filter_cons_of_pos, List.filter_nil, List.map_cons,
    List.map_nil] at hsent
  generalize count shm e.1 (sender e.1) = n at hsent ⊢
  rcases n with _ | n
  · simp at hsent
  · rw [List.range_succ, List.map_append, List.map_singleton] at hsent
    have hlast := List.append_inj_right' hsent rfl
    refine ⟨Nat.succ_pos n, ?_⟩
    rw [List.singleton_inj.mp hlast, UInt64.ofNat_add, UInt64.ofNat_one]

/-- Who has not sent anything. -/
theorem Sends.sent_eq_zero (h : Sends total shm sender) (hnew : ∀ e ∈ shm.published, e.1 ≠ p) :
    (sender p).sent = 0 := by
  have hsent := (h.each p).sent
  have hnil : sentBy shm p = [] := by
    simpa [sentBy] using fun a b hmem => hnew (a, b) hmem
  rw [hnil, eq_comm, List.map_eq_nil_iff, List.range_eq_nil, count] at hsent
  exact UInt64.toNat_inj.mp (by simp only [UInt64.toNat_zero]; omega)

/-- The next message of `p`, which is in one piece with those before it. -/
theorem Sends.streams_concat (h : Sends total shm sender) (alive : shm.live p)
    (htrial : (sender p).trial = some v) (hzero : landed shm p (sender p) = 0) :
    Streams (shm.published ++ [(p, v)]) := by
  obtain ⟨-, t, rfl⟩ := (h.each p).value v (pushing_of_trial htrial)
  have hstreams := h.streams
  rcases List.eq_nil_or_concat shm.published with hnil | ⟨P, e, hpublished⟩
  · refine .fresh hstreams ?_ ?_ (made_makeMessage _ t) ?_
    · simp [hnil]
    · simp [hnil]
    · exact h.sent_eq_zero (by simp [hnil])
  · rw [List.concat_eq_append] at hpublished
    obtain ⟨hpos, hseq⟩ := h.seq_last hpublished
    have hlast : ∀ l, shm.published.getLast? = some l → l = e := by
      intro l hl
      rw [hpublished, List.getLast?_concat] at hl
      exact (Option.some.inj hl).symm
    by_cases he : e.1 = p
    · obtain ⟨q, m⟩ := e
      obtain rfl : q = p := he
      rw [hpublished] at hstreams ⊢
      refine .same hstreams (made_makeMessage _ t) ?_
      simp only [count] at hseq
      rw [hseq, hzero, Nat.add_zero, UInt64.ofNat_toNat, seq_makeMessage]
    · have hnew : ∀ e' ∈ shm.published, e'.1 ≠ p := by
        rintro e' he' rfl
        rcases h.retired e' he' fun l hl => hlast l hl ▸ he with hdead | hstopped
        · simp [Shm.live, hdead] at alive
        · obtain ⟨sent, spins, hpc⟩ := trying_of_trial htrial
          rw [hpc] at hstopped
          cases hstopped
      refine .fresh hstreams hnew ?_ (made_makeMessage _ t) (h.sent_eq_zero hnew)
      intro l hl
      rw [hlast l hl, hseq]
      intro heq
      have hlt := (h.each e.1).count_lt
      have hnat := congrArg UInt64.toNat heq
      rw [UInt64.toNat_ofNat', Nat.mod_eq_of_lt hlt, UInt64.toNat_zero] at hnat
      omega

/-- While `p` is attached, every other sender has retired. -/
theorem Sends.retired_of_ne (h : Sends total shm sender)
    (hexcl : OwnerWord.Exclusive (shm.seat .producer)) (alive : shm.live p)
    (hbound : (shm.endpoint .producer p).isBound = true) {e : ℤ × Message}
    (he : e ∈ shm.published) (hne : e.1 ≠ p) : Retired shm sender e.1 := by
  have holds_of : ∀ {q}, (shm.endpoint .producer q).isBound = true →
      (shm.endpoint .producer q).holds = true := by
    intro q hq
    rcases hend : shm.endpoint .producer q with _ | _ | _ | _ <;> rw [hend] at hq
    case bound => rfl
    all_goals cases hq
  by_contra hnot
  simp only [Retired, not_or, Bool.not_eq_true] at hnot
  have alive' : shm.live e.1 := by
    simp [Shm.live, h.pos e he, hnot.1]
  have hbound' := (h.each e.1).isBound_of_mem (m := e.2) he hnot.2
  exact hne (hexcl.unique alive' alive (holds_of hbound') (holds_of hbound))

theorem sentBy_produced (shm : Shm Message) (p q : ℤ)
    (out : Ring Message × Producer Message × List Message) :
    sentBy (shm.produced p out) q =
      sentBy shm q ++ if p = q then out.2.2.map Message.seq else [] := by
  have hpublished : (shm.produced p out).published = shm.published ++ out.2.2.map (Prod.mk p) := rfl
  rw [sentBy, hpublished, List.filter_append, List.map_append, sentBy]
  congr 1
  split_ifs with hq
  · simp [hq, List.filter_map, Function.comp_def]
  · simp [hq, List.filter_map, Function.comp_def]

/-- A step of `p` leaves the others. -/
theorem Sender.produced {q : ℤ} (h : Sender limit shm q pc) (hq : q ≠ p)
    (out : Ring Message × Producer Message × List Message) :
    Sender limit (shm.produced p out) q pc := by
  refine h.frame (Shm.endpoint_set_of_ne_pid hq) ?_
  rw [sentBy_produced, if_neg (Ne.symm hq), List.append_nil]

/-- The call of a `try_push`. -/
theorem sends_attempt {sent : UInt64} {spins : UInt32} (h : Sends total shm sender)
    (hpc : sender p = .next sent v spins)
    (hstep : shm.step S (.produce p (.tryPush v)) = some shm') :
    Sends total shm' (Function.update sender p (.trying sent v spins)) := by
  cases Shm.steps_of_step hstep with
  | @produce _ _ w out hat alive act =>
    obtain ⟨ring, w', xs⟩ := out
    obtain ⟨htries, hpushed, rfl⟩ := Producer.tries_call act
    have hself : (shm.produced p (ring, w', [])).endpoint .producer p = .bound w' :=
      Shm.endpoint_set_self
    have hpublished : (shm.produced p (ring, w', [])).published = shm.published :=
      List.append_nil _
    have hold := h.each p
    rw [hpc] at hold
    refine ⟨fun q => ?_, by rw [hpublished]; exact h.pos, fun e he hlast => ?_,
      by rw [hpublished]; exact h.streams⟩
    · by_cases hq : q = p
      · subst hq
        rw [Function.update_self]
        refine ⟨fun u _ hnone => (by cases hnone), fun _ => by rw [hself]; rfl,
          fun u v' hu hv' => ?_, hold.value, hold.le, ?_⟩
        · rw [hself] at hu
          obtain rfl := Endpoint.bound.inj hu
          obtain rfl := Option.some.inj hv'
          exact htries
        · rw [sentBy_produced, if_pos rfl, List.map_nil, List.append_nil, hold.sent]
          simp [count, landed, hself, hpushed, SendPc.sent]
      · rw [Function.update_of_ne hq]
        exact (h.each q).produced hq _
    · rw [hpublished] at he hlast
      refine (h.retired e he hlast).imp_right fun hstopped => ?_
      have hne : e.1 ≠ p := by
        intro heq
        rw [heq, hpc] at hstopped
        cases hstopped
      rw [Function.update_of_ne hne]
      exact hstopped

/-- A step of a `try_push`. -/
theorem sends_produce (hexcl : OwnerWord.Exclusive (shm.seat .producer))
    (h : Sends total shm sender) (hstep : shm.step S (.produce p .step) = some shm') :
    Sends total shm' sender := by
  cases Shm.steps_of_step hstep with
  | @produce _ _ w out hat alive act =>
    obtain ⟨ring, w', xs⟩ := out
    have hold := h.each p
    obtain ⟨v, htrial⟩ : ∃ v, (sender p).trial = some v := by
      rw [← Option.isSome_iff_exists]
      by_contra hnone
      have hidle := hold.ready w hat (by simpa using hnone)
      rw [Producer.act_of_idle hidle] at act
      cases act
    obtain ⟨sent, spins, hpc⟩ := trying_of_trial htrial
    obtain ⟨hbefore, htries, hout⟩ := Producer.tries_step (hold.tries w v hat htrial) act
    have hself : (shm.produced p (ring, w', xs)).endpoint .producer p = .bound w' :=
      Shm.endpoint_set_self
    have hzero : landed shm p (sender p) = 0 := by
      simp [landed, hpc, hat, hbefore]
    refine ⟨fun q => ?_, fun e he => ?_, fun e he hlast => ?_, ?_⟩
    · by_cases hq : q = p
      · subst hq
        refine ⟨fun u _ hnone => ?_, fun _ => by rw [hself]; rfl, fun u v' hu hv' => ?_, hold.value,
          hold.le, ?_⟩
        · rw [htrial] at hnone
          cases hnone
        · rw [hself] at hu
          obtain rfl := Endpoint.bound.inj hu
          rw [htrial] at hv'
          obtain rfl := Option.some.inj hv'
          exact htries
        · obtain ⟨-, t, hv⟩ := hold.value v (pushing_of_trial htrial)
          have hseq : v.seq = (sender q).sent := by rw [hv, seq_makeMessage]
          have hlanded : landed (shm.produced q (ring, w', xs)) q (sender q) = xs.length := by
            simp only [landed, hpc, hself]
            rcases hout with ⟨rfl, hno⟩ | ⟨rfl, hyes⟩
            · rw [if_neg hno, List.length_nil]
            · rw [if_pos hyes, List.length_singleton]
          rw [sentBy_produced, if_pos rfl, hold.sent, count, count, hzero, hlanded, Nat.add_zero]
          rcases hout with ⟨rfl, -⟩ | ⟨rfl, -⟩
          · rw [List.map_nil, List.append_nil, List.length_nil, Nat.add_zero]
          · rw [List.length_singleton, List.range_succ, List.map_append, List.map_singleton,
              List.map_singleton, hseq, UInt64.ofNat_toNat]
      · exact (h.each q).produced hq _
    · rcases List.mem_append.mp he with he | he
      · exact h.pos e he
      · obtain ⟨x, -, rfl⟩ := List.mem_map.mp he
        exact Shm.pos_of_live alive
    · have hdead : Retired shm sender e.1 → Retired (shm.produced p (ring, w', xs)) sender e.1 := id
      rcases hout with ⟨rfl, -⟩ | ⟨rfl, -⟩
      · rw [Shm.produced, List.map_nil, List.append_nil] at he hlast
        exact hdead (h.retired e he hlast)
      · have hne : e.1 ≠ p := Ne.symm (hlast (p, v) (by simp [Shm.produced]))
        rcases List.mem_append.mp he with he | he
        · exact hdead (h.retired_of_ne hexcl alive (by rw [hat]; rfl) he hne)
        · obtain ⟨x, -, rfl⟩ := List.mem_map.mp he
          exact absurd rfl hne
    · rcases hout with ⟨rfl, -⟩ | ⟨rfl, -⟩
      · simpa [Shm.produced] using h.streams
      · exact h.streams_concat alive htrial hzero

end Demo

end ShmSpsc
