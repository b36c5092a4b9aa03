import ShmSpsc.Streams

/-!
# The demo, end to end

`Consumes` is what holds of the consumer's program : it has counted what it has got, which is
what was released up to its current `pop_n`, and from its look at `writeIdx` on the producer that
it has found gone sends nothing more. `Demo.Inv` puts it together with `Sends`.

`Demo.counts_exact` : along every run the messages of each producer count from `0` without a gap,
and the consumer's count is that of a prefix of them, with one error for each producer after
the first. `Demo.ends_exact` : the consumer's loop ends only when it has got everything from the
producer that it has found gone, and a producer reports that the consumer went away only if it
did.
-/

namespace ShmSpsc

open Transition

/-- The producer found gone and the log at the look at `writeIdx`, from that look on. -/
def LoopPc.watched {T : Type*} : LoopPc T → Option (ℤ × Log T)
  | .emptySecond _ who _ _ seen => some (who, seen)
  | .gaveUp who seen => some (who, seen)
  | _ => none

theorem LoopPc.watched_of_attempting {T : Type*} {pc : LoopPc T} (h : pc.attempting = true) :
    pc.watched = none := by
  rcases pc with _ | _ | _ | _ | _ | _ | _ | _ | _ <;> first | rfl | cases h

/-- Who is absent attaches, or stays so. -/
theorem Shm.endpoint_of_absent {T : Type*} {S : Setup} {s s' : Shm T} {a : ShmAct T} {role : Role}
    {p : ℤ} {thrown : Option Exception} (h : step S s a = some s')
    (habsent : s.endpoint role p = .absent thrown) (hattach : ∀ A, a ≠ .attach role p A) :
    s'.endpoint role p = .absent thrown := by
  rw [← habsent]
  have other {t : Shm T} {role' : Role} {p' : ℤ} {e : Endpoint (Worker T role')}
      (ht : t.endpoint = s.endpoint) (hne : ¬(role = role' ∧ p = p')) :
      (t.set role' p' e).endpoint role p = s.endpoint role p := by
    rw [← ht]
    by_cases hrole : role = role'
    · subst hrole
      exact endpoint_set_of_ne_pid fun heq => hne ⟨rfl, heq⟩
    · rw [endpoint_set_of_ne_role hrole]
  cases steps_of_step h with
  | create hat alive answers =>
    refine other rfl ?_
    rintro ⟨rfl, rfl⟩
    rw [hat] at habsent
    cases habsent
  | attach hat alive =>
    refine other rfl ?_
    rintro ⟨rfl, rfl⟩
    exact hattach _ rfl
  | die alive => rfl
  | attachStep hat alive answers =>
    refine other rfl ?_
    rintro ⟨rfl, rfl⟩
    rw [hat] at habsent
    cases habsent
  | produce hat alive act =>
    refine other rfl ?_
    rintro ⟨rfl, rfl⟩
    rw [hat] at habsent
    cases habsent
  | consume hat alive act =>
    refine other rfl ?_
    rintro ⟨rfl, rfl⟩
    rw [hat] at habsent
    cases habsent
  | detach hat alive idle =>
    refine other rfl ?_
    rintro ⟨rfl, rfl⟩
    rw [hat] at habsent
    cases habsent

/-- Only a consumer's step releases. -/
theorem Shm.released_of_not_consume {T : Type*} {S : Setup} {s s' : Shm T} {a : ShmAct T}
    (h : step S s a = some s') (hconsume : ∀ p act, a ≠ .consume p act) :
    s'.released = s.released := by
  cases steps_of_step h with
  | consume hat alive act => exact absurd rfl (hconsume _ _)
  | _ => rfl

namespace Demo

variable {S : Setup} {base base' : Loops Message} {tally : Tally} {p : ℤ}

/-- What holds of the consumer's program. -/
structure Consumes (S : Setup) (base : Loops Message) (tally : Tally) : Prop where
  only : ∀ p, p ≠ S.creator → ∃ thrown, base.base.endpoint .consumer p = .absent thrown
  attempt : (base.loop S.creator).attempting = true →
    ∃ q, base.base.endpoint .consumer S.creator = .bound q ∧ PopPc.Attempt q.pc
  ready : (base.loop S.creator).attempting = false →
    ∀ q, base.base.endpoint .consumer S.creator = .bound q → Worker.idle .consumer q
  got : base.base.log.released = base.got S.creator ++ base.pending S.creator
  tally_eq : tally = Tally.start.batch (base.got S.creator)
  seen : ∀ who seen, (base.loop S.creator).watched = some (who, seen) →
    seen.released = base.base.log.released ∧ ∃ P R, base.base.published = P ++ R ∧
      seen.published = P.map Prod.snd ∧ ∀ e ∈ R, e.1 ≠ who

theorem consumes_opened (S : Setup) (slots : ℕ → Message) :
    Consumes S (.opened S slots) .start := by
  refine ⟨fun p hp => ⟨none, ?_⟩, by rintro ⟨⟩, fun _ q hq => ?_, rfl, (Tally.batch_nil _).symm,
    by rintro _ _ ⟨⟩⟩
  · simp [Loops.opened, Shm.opened, hp]
  · simp only [Loops.opened, Shm.opened] at hq
    split_ifs at hq

/-- A step of the queue that is not the consumer's. -/
theorem Consumes.quiet {b : ShmAct Message} {R : List (ℤ × Message)}
    (h : Consumes S base tally) (hstep : base.base.step S b = some base'.base)
    (hconsume : ∀ p act, b ≠ .consume p act) (hattach : ∀ p A, b ≠ .attach .consumer p A)
    (hdetach : (base.loop S.creator).attempting = true → b ≠ .detach .consumer S.creator)
    (hloop : base'.loop S.creator = base.loop S.creator)
    (hgot : base'.got S.creator = base.got S.creator)
    (hpublished : base'.base.published = base.base.published ++ R)
    (hR : ∀ who seen, (base.loop S.creator).watched = some (who, seen) → ∀ e ∈ R, e.1 ≠ who) :
    Consumes S base' tally := by
  have hreleased : base'.base.log.released = base.base.log.released :=
    congrArg (List.map Prod.snd) (Shm.released_of_not_consume hstep hconsume)
  have hkept : (base.loop S.creator).attempting = true →
      base'.base.endpoint .consumer S.creator = base.base.endpoint .consumer S.creator := by
    intro hat
    obtain ⟨q, hq, -⟩ := h.attempt hat
    exact Shm.endpoint_of_step hstep (by rw [hq]; rfl) (hdetach hat) (by simp) fun _ => hconsume _
  have hpending : base'.pending S.creator = base.pending S.creator := by
    simp only [Loops.pending, hloop]
    split_ifs with hat
    · simp only [Loops.taken, hkept hat]
    · rfl
  refine ⟨fun p hp => ?_, fun hat => ?_, fun hat q hq => ?_, ?_, ?_, fun who seen hseen => ?_⟩
  · obtain ⟨thrown, hthrown⟩ := h.only p hp
    exact ⟨thrown, Shm.endpoint_of_absent hstep hthrown (hattach p)⟩
  · rw [hloop] at hat
    obtain ⟨q, hq, hpc⟩ := h.attempt hat
    exact ⟨q, (hkept hat).trans hq, hpc⟩
  · rw [hloop] at hat
    rcases Shm.idle_or_bound_of_step hstep hq (by simp) (fun _ => hconsume _) with hidle | hbefore
    · exact hidle
    · exact h.ready hat q hbefore
  · rw [hreleased, hgot, hpending]
    exact h.got
  · rw [hgot]
    exact h.tally_eq
  · rw [hloop] at hseen
    obtain ⟨hsame, P, R', hP, hmap, hR'⟩ := h.seen who seen hseen
    refine ⟨hsame.trans hreleased.symm, P, R' ++ R, ?_, hmap, fun e he => ?_⟩
    · rw [hpublished, hP, List.append_assoc]
    · rcases List.mem_append.mp he with he | he
      · exact hR' e he
      · exact hR who seen hseen e he

/-- A step of the consumer inside its `pop_n`, or the call of it. -/
theorem Consumes.consume {q : Consumer Message} {ring : Ring Message} {xs : List Message}
    (h : Consumes S base tally)
    (hbase : base'.base = base.base.consumed S.creator (ring, q, xs)) (hpc : PopPc.Attempt q.pc)
    (htaken : q.taken.getD [] = xs) (hbefore : base.pending S.creator = [])
    (hafter : (base'.loop S.creator).attempting = true)
    (hgot : base'.got S.creator = base.got S.creator) : Consumes S base' tally := by
  have hend : base'.base.endpoint .consumer S.creator = .bound q := by
    rw [hbase, Shm.consumed, Shm.endpoint_set_self]
  have hpending : base'.pending S.creator = xs := by
    rw [Loops.pending, hafter, if_pos rfl, Loops.taken, hend]
    exact htaken
  refine ⟨fun p hp => ?_, fun _ => ⟨q, hend, hpc⟩, fun hat => ?_, ?_, ?_, fun who seen hseen => ?_⟩
  · obtain ⟨thrown, hthrown⟩ := h.only p hp
    refine ⟨thrown, ?_⟩
    rw [hbase, Shm.consumed, Shm.endpoint_set_of_ne_pid hp]
    exact hthrown
  · rw [hafter] at hat
    cases hat
  · rw [hbase, Shm.log_consumed, Log.release_released, h.got, hbefore, hpending, hgot,
      List.append_nil]
  · rw [hgot]
    exact h.tally_eq
  · rw [LoopPc.watched_of_attempting hafter] at hseen
    cases hseen

/-- A move of the consumer's loop outside its attempts. -/
theorem Consumes.move {pc : LoopPc Message} (h : Consumes S base tally)
    (hbefore : (base.loop S.creator).attempting = false) (hafter : pc.attempting = false)
    (hseen : ∀ who seen, pc.watched = some (who, seen) →
      seen.released = base.base.log.released ∧ ∃ P R, base.base.published = P ++ R ∧
        seen.published = P.map Prod.snd ∧ ∀ e ∈ R, e.1 ≠ who) :
    Consumes S (base.go S.creator pc) tally := by
  have hpending : (base.go S.creator pc).pending S.creator = base.pending S.creator := by
    simp [Loops.pending, hbefore, hafter]
  refine ⟨h.only, fun hat => ?_, fun _ => h.ready hbefore, ?_, h.tally_eq, ?_⟩
  · rw [Loops.loop_go_self, hafter] at hat
    cases hat
  · rw [hpending]
    exact h.got
  · rw [Loops.loop_go_self]
    exact hseen

/-- The consumer has counted what its `pop_n` has taken. -/
theorem Consumes.test {k : Loop} {spins : UInt32} {xs : List Message} (h : Consumes S base tally)
    (hat : base.loop S.creator = .trying k spins) (htaken : base.taken S.creator = some xs) :
    Consumes S ((base.take S.creator xs).go S.creator (Loops.afterAttempt k spins xs))
      (tally.batch xs) := by
  have hpending : base.pending S.creator = xs := by
    simp only [Loops.pending, hat, htaken, LoopPc.attempting, if_true, Option.getD_some]
  have hafter : (Loops.afterAttempt k spins xs).attempting = false ∧
      (Loops.afterAttempt k spins xs).watched = none := by
    unfold Loops.afterAttempt
    split
    · split_ifs <;> exact ⟨rfl, rfl⟩
    · split <;> exact ⟨rfl, rfl⟩
  have hgot : ((base.take S.creator xs).go S.creator
      (Loops.afterAttempt k spins xs)).got S.creator = base.got S.creator ++ xs := by
    simp [Loops.go, Loops.take]
  refine ⟨h.only, fun hattempt => ?_, fun _ q hq => ?_, ?_, ?_, fun who seen hseen => ?_⟩
  · rw [Loops.loop_go_self, hafter.1] at hattempt
    cases hattempt
  · have hend : base.base.endpoint .consumer S.creator = .bound q := hq
    simp only [Loops.taken, hend, Consumer.taken] at htaken
    split at htaken
    next hpc => simp [Worker.idle, hpc]
    next => cases htaken
  · have hnone : ((base.take S.creator xs).go S.creator
        (Loops.afterAttempt k spins xs)).pending S.creator = [] := by
      simp [Loops.pending, hafter.1]
    rw [hgot, hnone, List.append_nil, ← hpending]
    exact h.got
  · rw [hgot, h.tally_eq, Tally.batch_append]
  · rw [Loops.loop_go_self, hafter.2] at hseen
    cases hseen

/-! ## The producers' look at the consumer -/

/-- The consumer has no handle any more. -/
def Absent (S : Setup) (shm : Shm Message) : Prop :=
  ∃ thrown, shm.endpoint .consumer S.creator = .absent thrown

/-- Nobody attaches as a consumer, and what a producer has seen of the consumer's pid. -/
structure Watches (S : Setup) (shm : Shm Message) (sender : ℤ → SendPc) : Prop where
  settled : ∀ p since pc, shm.endpoint .consumer p ≠ .attaching since pc
  pid : shm.object.pid .consumer = 0 ∨ shm.object.pid .consumer = S.creator ∨
    shm.object.pid .consumer = -1 ∧ Absent S shm
  probe : ∀ p sent v pid, sender p = .probe sent v pid → pid = S.creator ∨ Absent S shm
  gone : ∀ p sent, sender p = .stopped sent true → shm.dead S.creator = true ∨ Absent S shm

variable {shm shm' : Shm Message} {sender : ℤ → SendPc} {c : Capacity}

theorem watches_opened (S : Setup) (slots : ℕ → Message) :
    Watches S (.opened S slots) fun _ => .idle := by
  refine ⟨fun p since pc => ?_, .inl rfl, (by simp), (by simp)⟩
  simp only [Shm.opened]
  split_ifs <;> simp

/-- Only an attach attaches. -/
theorem settled_of_step {b : ShmAct Message}
    (h : ∀ p since pc, shm.endpoint .consumer p ≠ .attaching since pc)
    (hstep : shm.step S b = some shm') (hattach : ∀ p A, b ≠ .attach .consumer p A) :
    ∀ p since pc, shm'.endpoint .consumer p ≠ .attaching since pc := by
  have set_ {t : Shm Message} {role' : Role} {p' : ℤ} {e : Endpoint (Worker Message role')}
      (ht : t.endpoint = shm.endpoint)
      (hself : role' = .consumer → ∀ since pc, e ≠ .attaching since pc) (p : ℤ) (since : ℕ)
      (pc : AttachPc) : (t.set role' p' e).endpoint .consumer p ≠ .attaching since pc := by
    by_cases hrole : Role.consumer = role'
    · subst hrole
      by_cases hp : p = p'
      · subst hp
        rw [Shm.endpoint_set_self]
        exact hself rfl since pc
      · rw [Shm.endpoint_set_of_ne_pid hp, ht]
        exact h p since pc
    · rw [Shm.endpoint_set_of_ne_role hrole, ht]
      exact h p since pc
  cases Shm.steps_of_step hstep with
  | @create ans pc hat alive answers =>
    refine set_ rfl fun _ since pc' => ?_
    rcases (createStep S shm.object ans pc).2 with _ | _ | _ <;> simp [Outcome.endpoint]
  | @attach role p A thrown hat alive =>
    refine set_ rfl fun hrole => ?_
    subst hrole
    exact absurd rfl (hattach p A)
  | attachStep hat alive answers =>
    refine set_ rfl fun hrole => ?_
    subst hrole
    exact absurd hat (h _ _ _)
  | produce hat alive act => exact set_ rfl (by simp)
  | consume hat alive act => exact set_ rfl (by simp)
  | detach hat alive idle => exact set_ rfl (by simp)
  | die alive => exact h

/-- The consumer's pid slot is stored to by the creator. -/
theorem pid_of_step {b : ShmAct Message} (hphase : Shm.Phase S shm) (h : Watches S shm sender)
    (hstep : shm.step S b = some shm') :
    shm'.object.pid .consumer = shm.object.pid .consumer ∨
      shm'.object.pid .consumer = S.creator ∨
      shm'.object.pid .consumer = -1 ∧ b = .detach .consumer (shm.object.pid .consumer) := by
  have stored {o : Object Message} {role' : Role} {p' : ℤ}
      (hp' : role' = .consumer → p' = S.creator)
      (ho : o = shm.object ∨ o = shm.object.setPid role' p') :
      o.pid .consumer = shm.object.pid .consumer ∨ o.pid .consumer = S.creator := by
    rcases ho with rfl | rfl
    · exact .inl rfl
    · by_cases hrole : Role.consumer = role'
      · subst hrole
        rw [Object.pid_setPid_self]
        exact .inr (hp' rfl)
      · exact .inl (Object.pid_setPid_of_ne _ _ hrole)
  cases Shm.steps_of_step hstep with
  | @create ans pc hat alive answers =>
    have hstage := hphase.endpoint S.role S.creator
    rw [hat] at hstage
    by_cases hpc : ∃ b, pc = .binding b
    · obtain ⟨b, rfl⟩ := hpc
      exact (stored (fun _ => rfl) (createStep_binding_object S shm.object ans b)).imp_right .inl
    · exact .inl ((Shm.createStep_quiet ans hstage.2.2 fun b hb => hpc ⟨b, hb⟩).1 .consumer)
  | @attachStep role' p' ans since pc hat alive answers =>
    refine (stored (fun hrole => ?_)
      (attachStep_object S.name role' p' shm.object ans pc)).imp_right .inl
    subst hrole
    exact absurd hat (h.settled _ _ _)
  | @detach role' p' w hat alive idle =>
    simp only [Shm.detached, Shm.set_object]
    split_ifs with hpid
    · by_cases hrole : Role.consumer = role'
      · subst hrole
        exact .inr (.inr ⟨Object.pid_setPid_self _ _ _, by rw [hpid]⟩)
      · exact .inl (Object.pid_setPid_of_ne _ _ hrole)
    · exact .inl rfl
  | _ => exact .inl rfl

/-- A step of the queue. -/
theorem watches_step {b : ShmAct Message} (hphase : Shm.Phase S shm) (h : Watches S shm sender)
    (hstep : shm.step S b = some shm') (hattach : ∀ p A, b ≠ .attach .consumer p A) :
    Watches S shm' sender := by
  have absent : Absent S shm → Absent S shm' := fun ⟨thrown, hthrown⟩ =>
    ⟨thrown, Shm.endpoint_of_absent hstep hthrown (hattach _)⟩
  refine ⟨settled_of_step h.settled hstep hattach, ?_,
    fun p sent v pid hat => (h.probe p sent v pid hat).imp_right absent,
    fun p sent hat => (h.gone p sent hat).imp (Shm.dead_of_step hstep) absent⟩
  rcases pid_of_step hphase h hstep with hsame | hcreator | ⟨hleft, rfl⟩
  · rw [hsame]
    exact h.pid.imp_right (Or.imp_right (And.imp_right absent))
  · exact .inr (.inl hcreator)
  · have hpos : 0 < shm.object.pid .consumer := by
      cases Shm.steps_of_step hstep with
      | detach hat alive idle => exact Shm.pos_of_live alive
    rcases h.pid with hzero | hcreator | ⟨hleft', -⟩
    · omega
    · rw [hcreator] at hstep
      exact .inr (.inr ⟨hleft, none, Shm.endpoint_of_detach hstep⟩)
    · omega

/-- A move of a producer's loop. -/
theorem Watches.update {pc : SendPc} (h : Watches S shm sender)
    (hprobe : ∀ sent v pid, pc = .probe sent v pid → pid = S.creator ∨ Absent S shm)
    (hgone : ∀ sent, pc = .stopped sent true → shm.dead S.creator = true ∨ Absent S shm) :
    Watches S shm (Function.update sender p pc) := by
  refine ⟨h.settled, h.pid, fun q sent v pid hat => ?_, fun q sent hat => ?_⟩
  · by_cases hq : q = p
    · subst hq
      rw [Function.update_self] at hat
      exact hprobe sent v pid hat
    · rw [Function.update_of_ne hq] at hat
      exact h.probe q sent v pid hat
  · by_cases hq : q = p
    · subst hq
      rw [Function.update_self] at hat
      exact hgone sent hat
    · rw [Function.update_of_ne hq] at hat
      exact h.gone q sent hat

/-! ## Every step keeps it -/

variable {total : ℤ → UInt64} {s s' : Demo} {a : DemoAct}

/-- What holds along the runs. -/
structure Inv (S : Setup) (total : ℤ → UInt64) (c : Capacity) (s : Demo) : Prop where
  sound : Shm.Sound S c s.base.base
  loops : Loops.Inv c s.base
  sends : Sends total s.base.base s.sender
  left : ∀ p ∈ s.base.left, (s.sender p).isStopped = true
  consumes : Consumes S s.base s.tally
  watches : Watches S s.base.base s.sender

theorem inv_opened (S : Setup) (total : ℤ → UInt64) (c : Capacity) (slots : ℕ → Message) :
    Inv S total c (opened S slots) :=
  ⟨Shm.sound_opened S c slots, Loops.inv_opened S c slots, sends_opened S total slots,
    by rintro _ ⟨⟩, consumes_opened S slots, watches_opened S slots⟩

/-- Who is in a consumer's loop is the creator. -/
theorem Inv.creator_of_inside (h : Inv S total c s) (hin : (s.base.loop p).inside = true) :
    p = S.creator := by
  by_contra hp
  obtain ⟨thrown, hthrown⟩ := h.consumes.only p hp
  have hbound := h.loops.bound p hin
  rw [hthrown] at hbound
  cases hbound

/-- A producer that the consumer has found gone is not in its loop any more. -/
theorem Inv.ne_of_gone (h : Inv S total c s) {who : ℤ} (hgone : s.base.Gone who)
    (alive : s.base.base.live p) (hin : (s.sender p).inside = true) : p ≠ who := by
  rintro rfl
  rcases hgone with hleft | hdead
  · have hstopped := h.left p hleft
    rw [isStopped_of_inside hin] at hstopped
    cases hstopped
  · simp [Shm.live, hdead] at alive

/-- A move of a producer's loop between two attempts. -/
theorem Inv.move {pc : SendPc} (h : Inv S total c s) (hat : (s.sender p).isStopped = false)
    (hpc : Sender (total p) s.base.base p pc)
    (hprobe : ∀ sent v pid, pc = .probe sent v pid → pid = S.creator ∨ Absent S s.base.base)
    (hgone : ∀ sent, pc = .stopped sent true →
      s.base.base.dead S.creator = true ∨ Absent S s.base.base) :
    Inv S total c (s.go p pc) := by
  refine ⟨h.sound, h.loops, h.sends.update hat hpc, fun q hq => ?_, h.consumes,
    h.watches.update hprobe hgone⟩
  have hstopped := h.left q hq
  have hne : q ≠ p := by
    rintro rfl
    rw [hat] at hstopped
    cases hstopped
  simp only [go, Function.update_of_ne hne]
  exact hstopped

/-- The producer found gone has gone. -/
theorem Inv.gone_of_watched (h : Inv S total c s) {who : ℤ} {seen : Log Message}
    (hat : (s.base.loop S.creator).watched = some (who, seen)) : s.base.Gone who := by
  have hknows := h.loops.knows S.creator
  rcases hpc : s.base.loop S.creator with _ | _ | _ | _ | _ | _ | ⟨k, w, b, x, l⟩ | _ | ⟨w, l⟩ <;>
    rw [hpc] at hat hknows
  case emptySecond =>
    obtain ⟨rfl, -⟩ := Prod.mk.inj (Option.some.inj hat)
    exact hknows.1
  case gaveUp =>
    obtain ⟨rfl, -⟩ := Prod.mk.inj (Option.some.inj hat)
    exact hknows.1
  all_goals cases hat

theorem inside_of_attempting {pc : LoopPc Message} (h : pc.attempting = true) :
    pc.inside = true := by
  rcases pc with _ | _ | _ | _ | _ | _ | _ | _ | _ <;> first | rfl | cases h

/-- The consumer's program over a step of the queue. -/
theorem Inv.consumes_shm {b : ShmAct Message} {base : Shm Message} (h : Inv S total c s)
    (hallows : s.allows (.shm b)) (hloops : s.base.allows b)
    (next : s.base.base.step S b = some base) :
    Consumes S { s.base with base := base, left := s.base.leaves b } s.tally := by
  have hattach : ∀ p A, b ≠ .attach .consumer p A := by
    rintro p A rfl
    simp [allows] at hallows
  have hdetach : (s.base.loop S.creator).attempting = true →
      b ≠ .detach .consumer S.creator := by
    rintro hat rfl
    simp [Loops.allows, inside_of_attempting hat] at hloops
  by_cases hact : ∃ p act, b = .consume p act
  · obtain ⟨p, act, rfl⟩ := hact
    obtain rfl : act = .step := by
      rcases act with _ | _ | _ | _ | _ | _ <;> first | rfl | cases hallows
    cases Shm.steps_of_step next with
    | @consume _ _ w out hat alive act =>
      obtain ⟨ring, q', xs⟩ := out
      obtain rfl : p = S.creator := by
        by_contra hp
        obtain ⟨thrown, hthrown⟩ := h.consumes.only p hp
        rw [hat] at hthrown
        cases hthrown
      have hattempt : (s.base.loop S.creator).attempting = true := by
        by_contra hnot
        have hidle := h.consumes.ready (by simpa using hnot) w hat
        simp only [Worker.idle] at hidle
        split at hidle
        next hpc =>
          rw [Consumer.act, hpc] at act
          cases act
        next => cases hidle
      obtain ⟨q, hq, hpc⟩ := h.consumes.attempt hattempt
      obtain rfl : q = w := Endpoint.bound.inj (hq.symm.trans hat)
      obtain ⟨hpc', htaken⟩ := Consumer.attempt_step hpc act
      refine h.consumes.consume rfl hpc' htaken ?_ hattempt rfl
      simp only [Loops.pending, hattempt, if_true, Loops.taken, hq, Consumer.taken_of_step act,
        Option.getD_none]
  · have hconsume : ∀ p act, b ≠ .consume p act := fun p act heq => hact ⟨p, act, heq⟩
    by_cases hpush : ∃ p act, b = .produce p act
    · obtain ⟨p, act, rfl⟩ := hpush
      obtain rfl : act = .step := by
        rcases act with _ | _ | _ <;> first | rfl | cases hallows
      cases Shm.steps_of_step next with
      | @produce _ _ w out hat alive act =>
        refine h.consumes.quiet (R := out.2.2.map (Prod.mk p)) next hconsume hattach hdetach rfl rfl
          rfl fun who seen hseen e he => ?_
        obtain ⟨x, -, rfl⟩ := List.mem_map.mp he
        refine h.ne_of_gone (h.gone_of_watched hseen) alive ?_
        by_contra hnot
        have htrial : (s.sender p).trial = none := by
          by_contra hsome
          obtain ⟨v, hv⟩ := Option.ne_none_iff_exists'.mp hsome
          exact hnot (inside_of_trial hv)
        rw [Producer.act_of_idle ((h.sends.each p).ready w hat htrial)] at act
        cases act
    · have hproduce : ∀ p act, b ≠ .produce p act := fun p act heq => hpush ⟨p, act, heq⟩
      refine h.consumes.quiet (R := []) next hconsume hattach hdetach rfl rfl ?_ (by simp)
      rw [List.append_nil]
      exact Shm.published_of_step next hproduce

/-- A step of the queue. -/
theorem inv_shm {b : ShmAct Message} {base : Shm Message} (hc : S.geometry.capacity = c.slots)
    (h : Inv S total c s) (hsafe : s.base.base.safeClaim b) (hallows : s.allows (.shm b))
    (hloops : s.base.allows b) (next : s.base.base.step S b = some base) :
    Inv S total c { s with base := { s.base with base := base, left := s.base.leaves b } } := by
  have hattach : ∀ p A, b ≠ .attach .consumer p A := by
    rintro p A rfl
    simp [allows] at hallows
  refine ⟨Shm.sound_step hc h.sound hsafe next, Loops.inv_shm h.sound h.loops hloops next, ?_,
    fun p hp => ?_, h.consumes_shm hallows hloops next,
    watches_step h.sound.phase h.watches next hattach⟩
  · by_cases hpush : ∃ p act, b = .produce p act
    · obtain ⟨p, act, rfl⟩ := hpush
      obtain rfl : act = .step := by
        rcases act with _ | _ | _ <;> first | rfl | cases hallows
      exact sends_produce (h.sound.exclusive .producer) h.sends next
    · refine sends_quiet h.sends next (fun p act heq => hpush ⟨p, act, heq⟩) ?_
      rintro p rfl
      exact hallows
  · simp only [Loops.leaves] at hp
    split at hp
    next q =>
      split_ifs at hp
      · rcases List.mem_append.mp hp with hp | hp
        · exact h.left p hp
        · rw [List.mem_singleton.mp hp]
          exact hallows
      · exact h.left p hp
    next => exact h.left p hp

/-- A step of the queue or of the consumer's loop. -/
theorem inv_loops {b : LoopAct Message} {base : Loops Message}
    (hc : S.geometry.capacity = c.slots) (h : Inv S total c s) (hsafe : s.safeClaim (.loops b))
    (hallows : s.allows b) (next : s.base.step S b = some base) :
    Inv S total c { s with base := base } := by
  have hloops := Loops.inv_step h.sound h.loops next
  have creator {q : ℤ} {pc : LoopPc Message} (hat : s.base.loop q = pc)
      (hin : pc.inside = true) : q = S.creator := h.creator_of_inside (by rw [hat]; exact hin)
  have moved {pc pc' : LoopPc Message} (hat : s.base.loop S.creator = pc)
      (hbefore : pc.attempting = false) (hafter : pc'.attempting = false)
      (hseen : ∀ who seen, pc'.watched = some (who, seen) →
        seen.released = s.base.base.log.released ∧ ∃ P R, s.base.base.published = P ++ R ∧
          seen.published = P.map Prod.snd ∧ ∀ e ∈ R, e.1 ≠ who)
      (hloops : Loops.Inv c (s.base.go S.creator pc')) :
      Inv S total c { s with base := s.base.go S.creator pc' } :=
    ⟨h.sound, hloops, h.sends, h.left,
      h.consumes.move (by rw [hat]; exact hbefore) hafter hseen, h.watches⟩
  cases Loops.steps_of_step next with
  | shm allowed hnext => exact inv_shm hc h hsafe hallows allowed hnext
  | call alive idle outside => cases hallows
  | @attempt p k spins base' hat next' =>
    obtain rfl := creator hat rfl
    have hquiet : Sends total base' s.sender :=
      sends_quiet h.sends next' (fun _ _ heq => by cases heq) fun _ heq => by cases heq
    refine ⟨Shm.sound_step hc h.sound rfl next', hloops, hquiet, h.left, ?_,
      watches_step h.sound.phase h.watches next' fun _ _ heq => by cases heq⟩
    cases Shm.steps_of_step next' with
    | @consume _ _ w out hend alive act =>
      obtain ⟨ring, q', xs⟩ := out
      obtain ⟨hpc, htaken, rfl⟩ := Consumer.attempt_call k act
      refine h.consumes.consume rfl hpc htaken ?_ ?_ rfl
      · simp [Loops.pending, hat, LoopPc.attempting]
      · rw [Loops.loop_go_self]
        rfl
  | test hat taken alive => cases hallows
  | unattached hat alive =>
    obtain rfl := creator hat rfl
    exact moved hat rfl rfl (by rintro _ _ ⟨⟩) hloops
  | load hat alive attached =>
    obtain rfl := creator hat rfl
    exact moved hat rfl rfl (by rintro _ _ ⟨⟩) hloops
  | running hat alive =>
    obtain rfl := creator hat rfl
    exact moved hat rfl rfl (by rintro _ _ ⟨⟩) hloops
  | kill hat alive answers gone =>
    obtain rfl := creator hat rfl
    exact moved hat rfl rfl (by rintro _ _ ⟨⟩) hloops
  | emptyFirst hat alive =>
    obtain rfl := creator hat rfl
    refine moved hat rfl rfl ?_ hloops
    rintro _ _ ⟨rfl, rfl⟩
    exact ⟨rfl, s.base.base.published, [], (List.append_nil _).symm, rfl, (by simp)⟩
  | nonempty hat alive =>
    obtain rfl := creator hat rfl
    exact moved hat rfl rfl (by rintro _ _ ⟨⟩) hloops
  | @giveUp p who k writeFirst x seen hat alive empty =>
    obtain rfl := creator hat rfl
    refine moved hat rfl rfl ?_ hloops
    rintro _ _ ⟨rfl, rfl⟩
    split_ifs
    · exact h.consumes.seen who seen (by rw [hat]; rfl)
    · exact ⟨rfl, s.base.base.published, [], (List.append_nil _).symm, rfl, (by simp)⟩

theorem idle_of_pushedBy {ok : Bool} (h : s.pushedBy p = some ok) {w : Producer Message}
    (hw : s.base.base.endpoint .producer p = .bound w) : Worker.idle .producer w := by
  simp only [pushedBy, hw, Producer.pushed] at h
  split at h
  next hpc => simp [Worker.idle, hpc]
  next => cases h

theorem landed_of_pushedBy {ok : Bool} (h : s.pushedBy p = some ok) (sent : UInt64) (v : Message)
    (spins : UInt32) : landed s.base.base p (.trying sent v spins) = if ok then 1 else 0 := by
  simp only [pushedBy] at h
  split at h
  next w hw => simp [landed, hw, h]
  next => cases h

/-- The loop after an attempt. -/
theorem Sender.afterAttempt {limit sent : UInt64} {v : Message} {spins : UInt32} {ok : Bool}
    (h : Sender limit shm p (.trying sent v spins))
    (hidle : ∀ w, shm.endpoint .producer p = .bound w → Worker.idle .producer w)
    (hlanded : landed shm p (.trying sent v spins) = if ok then 1 else 0) :
    Sender limit shm p (Demo.afterAttempt sent v spins ok) := by
  obtain ⟨hlt, hmade⟩ := h.value v rfl
  have hbound := h.bound rfl
  rcases ok with _ | _
  · -- the same message is tried again, or the consumer is looked at
    have retry {pc : SendPc} (htrial : pc.trial = none) (hpushing : pc.pushing = some v)
        (hsent : pc.sent = sent) : Sender limit shm p pc := by
      refine h.move hidle (fun _ => hbound) htrial ?_ ?_ ?_
      · intro x hx
        obtain rfl := Option.some.inj (hpushing.symm.trans hx)
        rw [hsent]
        exact ⟨hlt, hmade⟩
      · rw [hsent]
        exact h.le
      · rw [hsent, count, hlanded]
        rfl
    simp only [Demo.afterAttempt, Bool.false_eq_true, if_false]
    split_ifs
    · exact retry rfl rfl rfl
    · exact retry rfl rfl rfl
  · have hnat : (sent + 1).toNat = sent.toNat + 1 := by
      have hlt' := UInt64.lt_iff_toNat_lt.mp hlt
      have := limit.toNat_lt
      simp only [SendPc.sent] at hlt'
      rw [UInt64.toNat_add, UInt64.toNat_one, Nat.mod_eq_of_lt (by omega)]
    refine h.move hidle (fun _ => hbound) rfl (by rintro _ ⟨⟩) ?_ ?_
    · have hlt' := UInt64.lt_iff_toNat_lt.mp hlt
      rw [UInt64.le_iff_toNat_le]
      exact hnat ▸ hlt'
    · rw [count, hlanded]
      exact hnat

/-- Between two attempts the handle is idle, and the count is what was sent. -/
theorem Inv.settled {pc : SendPc} (h : Inv S total c s) (hat : s.sender p = pc)
    (htrial : pc.trial = none) :
    (∀ w, s.base.base.endpoint .producer p = .bound w → Worker.idle .producer w) ∧
      count s.base.base p (s.sender p) = pc.sent.toNat := by
  have hsender := h.sends.each p
  rw [hat] at hsender ⊢
  exact ⟨fun w hw => hsender.ready w hw htrial, by rw [count, landed_of_trial htrial]; rfl⟩

/-- A producer's loop moves on with the messages that it has sent so far. -/
theorem Inv.moves {pc pc' : SendPc} (h : Inv S total c s) (hat : s.sender p = pc)
    (hin : pc.inside = true) (htrial : pc.trial = none) (htrial' : pc'.trial = none)
    (hsent : pc'.sent = pc.sent)
    (hvalue : ∀ v, pc'.pushing = some v → pc'.sent < total p ∧ ∃ t, v = makeMessage pc'.sent t)
    (hprobe : ∀ sent v pid, pc' = .probe sent v pid → pid = S.creator ∨ Absent S s.base.base)
    (hgone : ∀ sent, pc' = .stopped sent true →
      s.base.base.dead S.creator = true ∨ Absent S s.base.base) :
    Inv S total c (s.go p pc') := by
  obtain ⟨hidle, hcount⟩ := h.settled hat htrial
  have hsender := h.sends.each p
  refine h.move (by rw [hat]; exact isStopped_of_inside hin)
    (hsender.move hidle (fun _ => hsender.bound (by rw [hat]; exact hin)) htrial' hvalue ?_ ?_)
    hprobe hgone
  · rw [hsent, ← hat]
    exact hsender.le
  · rw [hsent, hcount]

/-- The message being pushed stays the same. -/
theorem Inv.value {pc pc' : SendPc} (h : Inv S total c s) (hat : s.sender p = pc)
    (hsent : pc'.sent = pc.sent) (hsame : pc'.pushing = pc.pushing) :
    ∀ v, pc'.pushing = some v → pc'.sent < total p ∧ ∃ t, v = makeMessage pc'.sent t := by
  rw [hsent, hsame, ← hat]
  exact (h.sends.each p).value

/-- The consumer starts to drain the queue. -/
theorem inv_begin {base : Loops Message} (h : Inv S total c s)
    (next : s.base.step S (.call S.creator (.drain bufSize)) = some base) :
    Inv S total c { s with base := base } := by
  have hloops := Loops.inv_step h.sound h.loops next
  cases Loops.steps_of_step next with
  | call alive idle outside =>
    have hnot : (s.base.loop S.creator).attempting = false := by
      by_contra hat
      rw [Bool.not_eq_false] at hat
      rw [inside_of_attempting hat] at outside
      cases outside
    exact ⟨h.sound, hloops, h.sends, h.left, h.consumes.move hnot rfl (by rintro _ _ ⟨⟩),
      h.watches⟩

/-- It looks at what `pop_n` has given. -/
theorem inv_test {base : Loops Message} (h : Inv S total c s)
    (next : s.base.step S (.test S.creator) = some base) :
    Inv S total c
      { s with base := base, tally := s.tally.batch ((s.base.taken S.creator).getD []) } := by
  have hloops := Loops.inv_step h.sound h.loops next
  cases Loops.steps_of_step next with
  | test hat taken alive =>
    rw [taken, Option.getD_some]
    exact ⟨h.sound, hloops, h.sends, h.left, h.consumes.test hat taken, h.watches⟩

/-- A producer enters its loop. -/
theorem inv_start (h : Inv S total c s) (hat : s.sender p = .idle) (idle : s.idle p) :
    Inv S total c (s.go p (.head 0)) := by
  obtain ⟨hidle, hcount⟩ := h.settled hat rfl
  refine h.move (by rw [hat]; rfl) ((h.sends.each p).move hidle (fun _ => ?_) rfl (by rintro _ ⟨⟩)
    UInt64.zero_le hcount.symm) (by simp) (by simp)
  simp only [Demo.idle] at idle
  split at idle
  next hend =>
    rw [hend]
    rfl
  next => cases idle

/-- It calls `try_push`. -/
theorem inv_attempt {base : Loops Message} {sent : UInt64} {v : Message} {spins : UInt32}
    (hc : S.geometry.capacity = c.slots) (h : Inv S total c s)
    (hat : s.sender p = .next sent v spins)
    (next : s.base.step S (.shm (.produce p (.tryPush v))) = some base) :
    Inv S total c ({ s with base := base }.go p (.trying sent v spins)) := by
  have hloops := Loops.inv_step h.sound h.loops next
  cases Loops.steps_of_step next with
  | @shm _ shm allowed hnext =>
    have hquiet : Consumes S { s.base with
        base := shm, left := s.base.leaves (.produce p (.tryPush v)) } s.tally := by
      refine h.consumes.quiet (R := []) hnext (by simp) (by simp) (by simp) rfl rfl ?_ (by simp)
      cases Shm.steps_of_step hnext with
      | @produce _ _ w out hend alive act =>
        obtain ⟨ring, w', xs⟩ := out
        obtain ⟨-, -, rfl⟩ := Producer.tries_call act
        rfl
    refine ⟨Shm.sound_step hc h.sound rfl hnext, hloops, sends_attempt h.sends hat hnext,
      fun q hq => ?_, hquiet, ?_⟩
    · have hstopped := h.left q hq
      have hne : q ≠ p := by
        rintro rfl
        rw [hat] at hstopped
        cases hstopped
      simp only [go, Function.update_of_ne hne]
      exact hstopped
    · exact (watches_step h.sound.phase h.watches hnext (by simp)).update (by simp) (by simp)

/-- `try_push` has returned to it. -/
theorem inv_pushed {sent : UInt64} {v : Message} {spins : UInt32} {ok : Bool}
    (h : Inv S total c s) (hat : s.sender p = .trying sent v spins)
    (returned : s.pushedBy p = some ok) :
    Inv S total c (s.go p (afterAttempt sent v spins ok)) := by
  have hsender := h.sends.each p
  rw [hat] at hsender
  refine h.move (by rw [hat]; rfl) ?_ ?_ ?_
  · exact hsender.afterAttempt (fun w hw => idle_of_pushedBy returned hw)
      (landed_of_pushedBy returned sent v spins)
  · intro _ _ _ hpc
    unfold afterAttempt at hpc
    split_ifs at hpc
  · intro _ hpc
    unfold afterAttempt at hpc
    split_ifs at hpc

/-- It has loaded the consumer's pid. -/
theorem inv_load {sent : UInt64} {v : Message} (h : Inv S total c s)
    (hat : s.sender p = .loadPid sent v) (attached : s.base.base.object.pid .consumer ≠ 0) :
    Inv S total c (s.go p (.probe sent v (s.base.base.object.pid .consumer))) := by
  refine h.moves hat rfl rfl rfl rfl (h.value hat rfl rfl) ?_ (by simp)
  rintro _ _ _ ⟨rfl, rfl, rfl⟩
  rcases h.watches.pid with hzero | hcreator | ⟨-, habsent⟩
  · exact absurd hzero attached
  · exact .inl hcreator
  · exact .inr habsent

/-- It has found the consumer gone. -/
theorem inv_gone {sent : UInt64} {v : Message} {pid : ℤ} {ans : Answers} (h : Inv S total c s)
    (hat : s.sender p = .probe sent v pid) (answers : s.base.base.admits ans (some pid))
    (dead : ¬processAlive ans.kill pid) : Inv S total c (s.go p (.stopped sent true)) := by
  refine h.moves hat rfl rfl rfl rfl (by rintro _ ⟨⟩) (by simp) ?_
  rintro _ ⟨rfl⟩
  rcases h.watches.probe p sent v pid hat with rfl | habsent
  · refine .inl ?_
    by_contra hdead
    refine dead (Shm.processAlive_of_live answers ?_)
    simpa [Shm.live, S.creator_pos] using hdead
  · exact .inr habsent

/-- Every step keeps the invariant. -/
theorem inv_step (hc : S.geometry.capacity = c.slots) (h : Inv S total c s)
    (hsafe : s.safeClaim a) (hstep : step S total s a = some s') : Inv S total c s' := by
  cases steps_of_step hstep with
  | loops allowed next => exact inv_loops hc h hsafe allowed next
  | begin next => exact inv_begin h next
  | test next => exact inv_test h next
  | interrupt hat =>
    exact ⟨h.sound, h.loops.go trivial (by rintro ⟨⟩), h.sends, h.left,
      h.consumes.move (by rw [hat]; rfl) rfl (by rintro _ _ ⟨⟩), h.watches⟩
  | start hat idle => exact inv_start h hat idle
  | push hat more =>
    refine h.moves hat rfl rfl rfl rfl ?_ (by simp) (by simp)
    rintro v ⟨rfl⟩
    exact ⟨more, _, rfl⟩
  | stop hat => exact h.moves hat rfl rfl rfl rfl (by rintro _ ⟨⟩) (by simp) (by simp)
  | attempt hat next => exact inv_attempt hc h hat next
  | pushed hat returned => exact inv_pushed h hat returned
  | unattached hat => exact h.moves hat rfl rfl rfl rfl (h.value hat rfl rfl) (by simp) (by simp)
  | load hat attached => exact inv_load h hat attached
  | running hat => exact h.moves hat rfl rfl rfl rfl (h.value hat rfl rfl) (by simp) (by simp)
  | gone hat answers dead => exact inv_gone h hat answers dead

theorem inv_of_reaches (hc : S.geometry.capacity = c.slots) {slots : ℕ → Message}
    (run : Reaches (step S total) (fun s a => s.safeClaim a) (opened S slots) s) :
    Inv S total c s :=
  run.invariant (inv_opened S total c slots) fun _ _ _ h hsafe next => inv_step hc h hsafe next

/-- What the consumer has got is a prefix of what was published. -/
theorem Inv.got_prefix (h : Inv S total c s) :
    ∃ P, P <+: s.base.base.published ∧ s.base.got S.creator = P.map Prod.snd := by
  have hreleased : s.base.got S.creator <+: s.base.base.log.published := by
    refine List.IsPrefix.trans ?_ h.sound.intact.ring.fifo
    rw [h.consumes.got]
    exact List.prefix_append _ _
  refine ⟨s.base.base.published.take (s.base.got S.creator).length, List.take_prefix _ _, ?_⟩
  rw [List.map_take]
  exact List.prefix_iff_eq_take.mp hreleased

/-- What the consumer has counted is what it has got. -/
theorem Inv.tally_of_prefix (h : Inv S total c s) {P : List (ℤ × Message)}
    (hP : P <+: s.base.base.published) (hgot : s.base.got S.creator = P.map Prod.snd) :
    s.tally = ⟨.ofNat P.length, Streams.expected P, .ofNat (senders P - 1)⟩ := by
  rw [h.consumes.tally_eq, hgot]
  exact (h.sends.streams.of_prefix hP).batch_eq

/-- The counts of the demo are exact along every run, whatever the producers and the consumer
do and whenever one of them dies. The sequence numbers that a producer has published are
`0, 1, …` up to its count, which is never above its total, and the consumer has got a prefix of
what was published. It has counted these messages, and one error for each producer after the
first. -/
theorem counts_exact (S : Setup)
    (hcreate : create S.layout S.name S.requested S.calls = .ok S.geometry)
    (total : ℤ → UInt64) (slots : ℕ → Message) {s : Demo}
    (run : Reaches (step S total) (fun s a => s.safeClaim a) (opened S slots) s) :
    (∀ p, sentBy s.base.base p =
        (List.range (count s.base.base p (s.sender p))).map UInt64.ofNat ∧
      count s.base.base p (s.sender p) ≤ (total p).toNat) ∧
    ∃ P, P <+: s.base.base.published ∧ s.base.got S.creator = P.map Prod.snd ∧
      s.tally = ⟨.ofNat P.length, Streams.expected P, .ofNat (senders P - 1)⟩ := by
  have hinv : Inv S total (.ofCreate hcreate) s := inv_of_reaches rfl run
  refine ⟨fun p => ⟨(hinv.sends.each p).sent, (hinv.sends.each p).count_le⟩, ?_⟩
  obtain ⟨P, hP, hgot⟩ := hinv.got_prefix
  exact ⟨P, hP, hgot, hinv.tally_of_prefix hP hgot⟩

/-- Process `1` is the consumer, of a queue of two slots. -/
def demoSetup : Setup := { messageSetup with role := .consumer }

/-- The producer `p` attaches. -/
def attaches (p : ℤ) : List DemoAct :=
  DemoAct.loops (.shm (.attach .producer p messageLayout)) ::
    List.replicate 9 (DemoAct.loops (.shm (.attachStep .producer p .plain)))

/-- It sends one message, and detaches. -/
def sendsOne (p : ℤ) : List DemoAct :=
  [DemoAct.start p, DemoAct.push p 5, DemoAct.attempt p] ++
    List.replicate 4 (DemoAct.loops (.shm (.produce p .step))) ++
    [DemoAct.pushed p, DemoAct.stop p, DemoAct.loops (.shm (.detach .producer p))]

/-- A `pop_n` of `n` steps. -/
def popsN (n : ℕ) : List DemoAct :=
  DemoAct.loops (.attempt 1) :: List.replicate n (DemoAct.loops (.shm (.consume 1 .step))) ++
    [DemoAct.test]

/-- The producers `2` and `3` send one message each, one after the other, and the consumer gives
up after that. -/
def relayRun : List DemoAct :=
  List.replicate 20 (DemoAct.loops (.shm (.create .plain))) ++ attaches 2 ++ [DemoAct.begin] ++
    sendsOne 2 ++ popsN 5 ++ attaches 3 ++ sendsOne 3 ++ popsN 5 ++ popsN 3 ++
    [DemoAct.loops (.load 1), DemoAct.loops (.kill 1 .plain), DemoAct.loops (.emptyFirst 1 true),
      DemoAct.loops (.emptySecond 1)]

theorem relayRun_ends :
    ((exec (step demoSetup fun _ => 1) (fun s a => s.safeClaim a)
      (opened demoSetup fun _ => makeMessage 0 0) relayRun).map fun s =>
        (s.tally, s.sender 2, (s.base.loop 1).watched.map Prod.fst,
          (s.base.loop 1).inside)) =
      some (⟨2, 1, 1⟩, .stopped 1 false, some 3, false) := by decide +kernel

theorem counts_exact_relayRun :
    ∃ s : Demo, s.tally = ⟨2, 1, 1⟩ ∧
      sentBy s.base.base 2 = (List.range (count s.base.base 2 (s.sender 2))).map UInt64.ofNat ∧
      count s.base.base 2 (s.sender 2) ≤ 1 ∧
      ∃ P, P <+: s.base.base.published ∧ s.base.got 1 = P.map Prod.snd ∧
        s.tally = ⟨.ofNat P.length, Streams.expected P, .ofNat (senders P - 1)⟩ := by
  obtain ⟨s, hs, hview⟩ := Option.map_eq_some_iff.mp relayRun_ends
  have hexact := counts_exact demoSetup (by decide) _ _ (Reaches.of_exec hs)
  exact ⟨s, congrArg Prod.fst hview, (hexact.1 2).1, (hexact.1 2).2, hexact.2⟩

end Demo

end ShmSpsc
