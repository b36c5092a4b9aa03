import ShmSpsc.PingPong

/-!
# Round trips

Every step of the latency benchmark keeps `PingPong.Inv`. With one message under way at most, no
`try_push` of the benchmark ever finds its queue full, and the reply that the parent reads is the
one to its last request : `PingPong.in_step`. `PingPong.samples_exact` is what this makes of the
samples : no difference of times wraps, and none of the one-way times is above its round trip.
-/

namespace ShmSpsc

open Transition

namespace PingPong

variable {c : Capacity} {iters : UInt64} {s s' : PingPong}

/-! ## Every step keeps it -/

theorem toNat_succ {i n : UInt64} (h : i < n) : (i + 1).toNat = i.toNat + 1 := by
  have hlt := UInt64.lt_iff_toNat_lt.mp h
  have hn := n.toNat_lt
  rw [UInt64.toNat_add, UInt64.toNat_one]
  omega

theorem succ_le {i n : UInt64} (h : i < n) : i + 1 ≤ n := by
  rw [UInt64.le_iff_toNat_le, toNat_succ h]
  exact UInt64.lt_iff_toNat_lt.mp h

theorem zero_or_one {k : UInt64} (h : k ≤ 1) : k = 0 ∨ k = 1 := by
  have hle := UInt64.le_iff_toNat_le.mp h
  simp only [UInt64.toNat_one] at hle
  rcases Nat.le_one_iff_eq_zero_or_eq_one.mp hle with hk | hk
  · exact .inl (UInt64.toNat_inj.mp hk)
  · exact .inr (UInt64.toNat_inj.mp hk)

theorem toNat_delta {t0 t : UInt64} (h : t0 ≤ t) :
    (if t0 < t then t - t0 else 0).toNat = t.toNat - t0.toNat := by
  split_ifs with hlt
  · exact UInt64.toNat_sub_of_le _ _ h
  · obtain rfl : t0 = t := UInt64.le_antisymm h (UInt64.not_lt.mp hlt)
    exact (Nat.sub_self _).symm

/-- A `try_push` of request `i`. -/
theorem inv_sending {i t0 : UInt64} {ping : Spsc Message} (h : Inv c iters s)
    (hat : s.parent = .sending i t0) (hstep : s.ping.step c.slots (.produce .step) = some ping) :
    Inv c iters { s with ping := ping } := by
  have hparent := h.parent
  rw [hat] at hparent
  obtain ⟨hends, hheard, hi, ht, hpushes, -, -⟩ := hparent
  have hlen : s.ping.log.published.length = i.toNat := by
    rw [Spsc.pushed_of_step hstep] at hends
    exact hends.length_eq
  obtain ⟨hpushes', hle, hlog, hconsumer⟩ := Spsc.push_step hpushes hstep
  -- everything asked so far has been heard, so the queue is empty
  have hfirst : ping.pushed ≠ some 0 := by
    intro hzero
    have hfull := Spsc.full_of_refused h.ping hpushes hstep hzero
    obtain ⟨h₁, h₂, h₃, h₄⟩ := h.inStep
    have := c.two_le
    rw [Log.held, toNat_capacityOf] at hfull
    omega
  have hrequests : Requests ping.log.published s.clock := by
    rw [hlog, Log.publish_published]
    rcases zero_or_one hle with hk | hk
    · rw [hk]
      simpa using h.requests
    · rw [hk]
      refine forall_get_concat h.requests ?_
      rw [hlen, UInt64.ofNat_toNat]
      exact ⟨rfl, ht⟩
  have key := h.parentMove (.sending i t0) (Spsc.inv_step h.ping hstep) h.pong hconsumer
    (by rw [hlog, Log.publish_released]) (by rw [hlog]; exact List.prefix_append _ _) rfl rfl
    List.prefix_rfl ⟨⟨_, by rw [hlog, Log.publish_published], hlen⟩, hheard, hi, ht, hpushes',
      hfirst, hle⟩ (by rw [hat]) hrequests
  rw [← hat] at key
  exact key

/-- A `try_pop` for the reply to request `i`. -/
theorem inv_receiving {i t0 : UInt64} {pong : Spsc Message} (h : Inv c iters s)
    (hat : s.parent = .receiving i t0) (hstep : s.pong.step c.slots (.consume .step) = some pong) :
    Inv c iters { s with pong := pong } := by
  have hparent := h.parent
  rw [hat] at hparent
  obtain ⟨hasked, hends, hi, hpops⟩ := hparent
  have hlen : s.pong.log.released.length = i.toNat := by
    rw [Spsc.popped_of_step hstep] at hends
    exact hends.length_eq
  obtain ⟨hpops', hlog, hproducer⟩ := Spsc.pop_step hpops hstep
  have key := h.parentMove (.receiving i t0) h.ping (Spsc.inv_step h.pong hstep) rfl rfl
    List.prefix_rfl hproducer (by rw [hlog, Log.release_published])
    (by rw [hlog]; exact List.prefix_append _ _)
    ⟨hasked, ⟨_, by rw [hlog, Log.release_released], hlen⟩, hi, hpops'⟩ (by rw [hat]) h.requests
  rw [← hat] at key
  exact key

/-- The parent has the reply, which is the one to request `i`. -/
theorem inv_heard {i t0 : UInt64} {reply : Message} {rest : List Message} (h : Inv c iters s)
    (hat : s.parent = .receiving i t0) (hpopped : s.pong.popped = some (reply :: rest)) :
    Inv c iters { s.sample iters i t0 reply with parent := .head (i + 1) } := by
  have hparent := h.parent
  rw [hat] at hparent
  obtain ⟨hasked, hends, hi, hpops⟩ := hparent
  rw [hpopped] at hends
  have hget : s.pong.log.released[i.toNat]? = some reply := hends.get
  have hlen := hends.length_eq
  have hlast := hasked.length_eq
  simp only [Option.getD_some, List.length_cons, List.length_nil] at hlen hlast
  obtain ⟨h₁, h₂, h₃, h₄⟩ := h.inStep
  obtain ⟨m, hm, -, hmr, hclock⟩ :=
    h.replies i.toNat reply (get_of_starts h.pong.ring.fifo hget)
  obtain rfl : makeMessage i t0 = m := Option.some.inj (hasked.get.symm.trans hm)
  have hround : s.parent.round = i := by rw [hat]; rfl
  have hsamples := h.samples
  rw [hround] at hsamples
  have hpc : (ParentPc.head (i + 1)).Inv (rounds iters) s.ping s.pong s.clock := by
    refine ⟨?_, ?_, succ_le hi⟩
    · rw [toNat_succ hi]
      omega
    · rw [toNat_succ hi]
      omega
  by_cases hwarm : warmup iters ≤ i
  · have hle := UInt64.le_iff_toNat_le.mp hwarm
    have htimed : RoundTimes s.ping.log.published s.pong.log.released i.toNat (s.clock - t0)
        (if t0 < reply.sentNs then reply.sentNs - t0 else 0) :=
      ⟨_, reply, s.clock, hm, hget, hmr, hclock,
        UInt64.toNat_sub_of_le _ _ (UInt64.le_trans hmr hclock), toNat_delta hmr⟩
    rw [sample, if_pos hwarm]
    refine ⟨h.ping, h.pong, hpc, h.echo, h.requests, h.replies, ?_⟩
    rw [ParentPc.round, toNat_succ hi]
    exact hsamples.take hle htimed
  · rw [sample, if_neg hwarm]
    refine ⟨h.ping, h.pong, hpc, h.echo, h.requests, h.replies, ?_⟩
    rw [ParentPc.round, toNat_succ hi]
    exact hsamples.skip (by rw [UInt64.le_iff_toNat_le] at hwarm; omega)

/-- The parent goes on without an access to a queue. -/
theorem Inv.parentGo {pc : ParentPc} (h : Inv c iters s)
    (hpc : pc.Inv (rounds iters) s.ping s.pong s.clock) (hround : pc.round = s.parent.round) :
    Inv c iters { s with parent := pc } :=
  h.parentMove _ h.ping h.pong rfl rfl List.prefix_rfl rfl rfl List.prefix_rfl hpc hround h.requests

/-- The parent calls `try_push`. -/
theorem inv_send {i t0 : UInt64} {ping : Spsc Message} (h : Inv c iters s)
    (hat : s.parent = .send i t0)
    (hcall : s.ping.step c.slots (.produce (.tryPush (makeMessage i t0))) = some ping) :
    Inv c iters { s with ping := ping, parent := .sending i t0 } := by
  have hparent := h.parent
  rw [hat] at hparent
  obtain ⟨hasked, hheard, hi, ht⟩ := hparent
  obtain ⟨hpushes, hnone, hlog, hconsumer⟩ := Spsc.tryPush_call (fun _ => makeMessage i t0) hcall
  refine h.parentMove _ (Spsc.inv_step h.ping hcall) h.pong hconsumer (by rw [hlog])
    (by rw [hlog]) rfl rfl List.prefix_rfl ⟨?_, hheard, hi, ht, hpushes, ?_, ?_⟩
    (by rw [hat]; rfl) (by rw [hlog]; exact h.requests)
  · rw [hnone, hlog]
    exact ends_nil hasked
  · rw [hnone]
    rintro ⟨⟩
  · rw [hnone]
    exact UInt64.zero_le

/-- A call that has returned what is not `0` has returned `1`. -/
theorem eq_one {pushed : Option UInt64} {ok : UInt64} (hok : pushed = some ok)
    (hfirst : pushed ≠ some 0) (hle : pushed.getD 0 ≤ 1) : ok = 1 := by
  rw [hok] at hfirst hle
  rcases zero_or_one hle with hk | hk
  · exact absurd (congrArg some hk) hfirst
  · exact hk

/-- The `try_push` of the parent has returned. -/
theorem inv_sent {i t0 ok : UInt64} (h : Inv c iters s) (hat : s.parent = .sending i t0)
    (hok : s.ping.pushed = some ok) :
    Inv c iters { s with parent := if ok = 0 then .send i t0 else .recv i t0 } := by
  have hparent := h.parent
  rw [hat] at hparent
  obtain ⟨hends, hheard, hi, -, -, hfirst, hle⟩ := hparent
  obtain rfl := eq_one hok hfirst hle
  rw [hok] at hends
  exact h.parentGo ⟨hends, hheard, hi⟩ (by rw [hat]; rfl)

/-- The parent calls `try_pop`. -/
theorem inv_recv {i t0 : UInt64} {pong : Spsc Message} (h : Inv c iters s)
    (hat : s.parent = .recv i t0) (hcall : s.pong.step c.slots (.consume .tryPop) = some pong) :
    Inv c iters { s with pong := pong, parent := .receiving i t0 } := by
  have hparent := h.parent
  rw [hat] at hparent
  obtain ⟨hasked, hheard, hi⟩ := hparent
  obtain ⟨hpops, hnone, hlog, hproducer⟩ := Spsc.pop_call (.pop 0) hcall
  refine h.parentMove _ h.ping (Spsc.inv_step h.pong hcall) rfl rfl List.prefix_rfl hproducer
    (by rw [hlog]) (by rw [hlog]) ⟨hasked, ?_, hi, hpops⟩ (by rw [hat]; rfl) h.requests
  rw [hnone, hlog]
  exact ends_nil hheard

/-- A step of the parent. -/
theorem inv_parent (h : Inv c iters s) (hstep : s.parentStep c.slots iters = some s') :
    Inv c iters s' := by
  have hparent := h.parent
  cases hat : s.parent with
  | waitPing =>
    rw [hat] at hparent
    simp only [parentStep, hat] at hstep
    split_ifs at hstep
    cases hstep
    exact h.parentGo hparent (by rw [hat]; rfl)
  | waitPong =>
    rw [hat] at hparent
    simp only [parentStep, hat] at hstep
    split_ifs at hstep
    cases hstep
    refine h.parentGo ⟨?_, ?_, UInt64.zero_le⟩ (by rw [hat]; rfl)
    · rw [hparent.1]
      rfl
    · rw [hparent.2]
      rfl
  | failed => simp [parentStep, hat] at hstep
  | head i =>
    rw [hat] at hparent
    obtain ⟨hasked, hheard, hle⟩ := hparent
    simp only [parentStep, hat] at hstep
    split_ifs at hstep with hi <;> cases hstep
    · exact h.parentGo ⟨hasked, hheard, hi, UInt64.le_rfl⟩ (by rw [hat]; rfl)
    · refine h.parentGo ⟨hasked, hheard, ?_⟩ (by rw [hat]; rfl)
      exact UInt64.le_antisymm hle (UInt64.not_lt.mp hi)
  | send i t0 =>
    simp only [parentStep, hat] at hstep
    obtain ⟨ping, hcall, rfl⟩ := Option.map_eq_some_iff.mp hstep
    exact inv_send h hat hcall
  | sending i t0 =>
    simp only [parentStep, hat] at hstep
    split at hstep
    next =>
      obtain ⟨ping, hact, rfl⟩ := Option.map_eq_some_iff.mp hstep
      rw [← hat]
      exact inv_sending h hat hact
    next ok hok =>
      cases hstep
      exact inv_sent h hat hok
  | recv i t0 =>
    simp only [parentStep, hat] at hstep
    obtain ⟨pong, hcall, rfl⟩ := Option.map_eq_some_iff.mp hstep
    exact inv_recv h hat hcall
  | receiving i t0 =>
    simp only [parentStep, hat] at hstep
    split at hstep
    next =>
      obtain ⟨pong, hact, rfl⟩ := Option.map_eq_some_iff.mp hstep
      rw [← hat]
      exact inv_receiving h hat hact
    next hnone =>
      rw [hat] at hparent
      obtain ⟨hasked, hends, hi, -⟩ := hparent
      rw [hnone] at hends
      cases hstep
      exact h.parentGo ⟨hasked, hends.length_eq, hi⟩ (by rw [hat]; rfl)
    next reply rest hpopped =>
      cases hstep
      exact inv_heard h hat hpopped
  | done i => simp [parentStep, hat] at hstep

/-- The echo process goes on without an access to a queue. -/
theorem Inv.echoGo {pc : EchoPc} (h : Inv c iters s)
    (hpc : pc.Inv (rounds iters) s.ping s.pong s.clock) : Inv c iters { s with echo := pc } :=
  h.echoMove _ h.ping h.pong rfl rfl rfl rfl hpc h.replies

/-- A load of `bind` in the first `attach`. -/
theorem inv_attachIn {ping : Spsc Message} (h : Inv c iters s) (hat : s.echo = .attachIn)
    (hstep : s.ping.step c.slots .attachConsumer = some ping) :
    Inv c iters { s with ping := ping } := by
  obtain ⟨hproducer, hlog⟩ := Spsc.attachConsumer_frame hstep
  have hecho := h.echo
  rw [hat] at hecho
  have key := h.echoMove .attachIn (Spsc.inv_step h.ping hstep) h.pong hproducer
    (by rw [hlog]) rfl rfl ⟨by rw [hlog]; exact hecho.1, hecho.2⟩ h.replies
  rw [← hat] at key
  exact key

/-- A load of `bind` in the second `attach`. -/
theorem inv_attachOut {pong : Spsc Message} (h : Inv c iters s) (hat : s.echo = .attachOut)
    (hstep : s.pong.step c.slots .attachProducer = some pong) :
    Inv c iters { s with pong := pong } := by
  obtain ⟨hconsumer, hlog⟩ := Spsc.attachProducer_frame hstep
  have hecho := h.echo
  rw [hat] at hecho
  have key := h.echoMove .attachOut h.ping (Spsc.inv_step h.pong hstep) rfl rfl hconsumer
    (by rw [hlog]) ⟨hecho.1, by rw [hlog]; exact hecho.2⟩ (by rw [hlog]; exact h.replies)
  rw [← hat] at key
  exact key

/-- The echo process calls `try_pop`. -/
theorem inv_echoRecv {i : UInt64} {ping : Spsc Message} (h : Inv c iters s)
    (hat : s.echo = .recv i) (hcall : s.ping.step c.slots (.consume .tryPop) = some ping) :
    Inv c iters { s with ping := ping, echo := .receiving i } := by
  have hecho := h.echo
  rw [hat] at hecho
  obtain ⟨htaken, hanswered, hi⟩ := hecho
  obtain ⟨hpops, hnone, hlog, hproducer⟩ := Spsc.pop_call (.pop 0) hcall
  refine h.echoMove _ (Spsc.inv_step h.ping hcall) h.pong hproducer (by rw [hlog]) rfl rfl
    ⟨?_, hanswered, hi, hpops⟩ h.replies
  rw [hnone, hlog]
  exact ends_nil htaken

/-- A `try_pop` for request `i`. -/
theorem inv_echoReceiving {i : UInt64} {ping : Spsc Message} (h : Inv c iters s)
    (hat : s.echo = .receiving i) (hstep : s.ping.step c.slots (.consume .step) = some ping) :
    Inv c iters { s with ping := ping } := by
  have hecho := h.echo
  rw [hat] at hecho
  obtain ⟨hends, hanswered, hi, hpops⟩ := hecho
  have hlen : s.ping.log.released.length = i.toNat := by
    rw [Spsc.popped_of_step hstep] at hends
    exact hends.length_eq
  obtain ⟨hpops', hlog, hproducer⟩ := Spsc.pop_step hpops hstep
  have key := h.echoMove (.receiving i) (Spsc.inv_step h.ping hstep) h.pong hproducer
    (by rw [hlog, Log.release_published]) rfl rfl
    ⟨⟨_, by rw [hlog, Log.release_released], hlen⟩, hanswered, hi, hpops'⟩ h.replies
  rw [← hat] at key
  exact key

/-- The echo process has request `i`, and stamps it. -/
theorem inv_echoTaken {i : UInt64} {m : Message} {rest : List Message} (h : Inv c iters s)
    (hat : s.echo = .receiving i) (hpopped : s.ping.popped = some (m :: rest)) :
    Inv c iters { s with echo := .send i { m with sentNs := s.clock } } := by
  have hecho := h.echo
  rw [hat] at hecho
  obtain ⟨hends, hanswered, hi, hpops⟩ := hecho
  rw [hpopped] at hends
  have hget : s.ping.log.published[i.toNat]? = some m := get_of_starts h.ping.ring.fifo hends.get
  have hlen := hends.length_eq
  simp only [Option.getD_some, List.length_cons] at hlen
  obtain ⟨h₁, h₂, h₃, h₄⟩ := h.inStep
  refine h.echoGo ⟨by omega, hanswered, hi, m, hget, rfl, ?_, UInt64.le_rfl⟩
  exact (h.requests i.toNat m hget).2

/-- The echo process calls `try_push`. -/
theorem inv_echoSend {i : UInt64} {m : Message} {pong : Spsc Message} (h : Inv c iters s)
    (hat : s.echo = .send i m)
    (hcall : s.pong.step c.slots (.produce (.tryPush m)) = some pong) :
    Inv c iters { s with pong := pong, echo := .sending i m } := by
  have hecho := h.echo
  rw [hat] at hecho
  obtain ⟨htaken, hanswered, hi, hreply⟩ := hecho
  obtain ⟨hpushes, hnone, hlog, hconsumer⟩ := Spsc.tryPush_call (fun _ => m) hcall
  refine h.echoMove _ h.ping (Spsc.inv_step h.pong hcall) rfl rfl hconsumer (by rw [hlog])
    ⟨htaken, ?_, hi, hreply, hpushes, ?_, ?_⟩ (by rw [hlog]; exact h.replies)
  · rw [hnone, hlog]
    exact ends_nil hanswered
  · rw [hnone]
    rintro ⟨⟩
  · rw [hnone]
    exact UInt64.zero_le

/-- A `try_push` of reply `i`. -/
theorem inv_echoSending {i : UInt64} {m : Message} {pong : Spsc Message} (h : Inv c iters s)
    (hat : s.echo = .sending i m) (hstep : s.pong.step c.slots (.produce .step) = some pong) :
    Inv c iters { s with pong := pong } := by
  have hecho := h.echo
  rw [hat] at hecho
  obtain ⟨htaken, hends, hi, hreply, hpushes, -, -⟩ := hecho
  have hlen : s.pong.log.published.length = i.toNat := by
    rw [Spsc.pushed_of_step hstep] at hends
    exact hends.length_eq
  obtain ⟨hpushes', hle, hlog, hconsumer⟩ := Spsc.push_step hpushes hstep
  -- the parent has heard every earlier reply, so the queue is empty
  have hfirst : pong.pushed ≠ some 0 := by
    intro hzero
    have hfull := Spsc.full_of_refused h.pong hpushes hstep hzero
    obtain ⟨h₁, h₂, h₃, h₄⟩ := h.inStep
    have := c.two_le
    rw [Log.held, toNat_capacityOf] at hfull
    omega
  have hreplies : ∀ k r, pong.log.published[k]? = some r →
      Replies s.ping.log.published s.clock k r := by
    rw [hlog, Log.publish_published]
    rcases zero_or_one hle with hk | hk
    · rw [hk]
      simpa using h.replies
    · rw [hk]
      refine forall_get_concat h.replies ?_
      rw [hlen]
      exact hreply
  have key := h.echoMove (.sending i m) h.ping (Spsc.inv_step h.pong hstep) rfl rfl hconsumer
    (by rw [hlog, Log.publish_released])
    ⟨htaken, ⟨_, by rw [hlog, Log.publish_published], hlen⟩, hi, hreply, hpushes', hfirst, hle⟩
    hreplies
  rw [← hat] at key
  exact key

/-- The `try_push` of the echo process has returned. -/
theorem inv_echoSent {i ok : UInt64} {m : Message} (h : Inv c iters s)
    (hat : s.echo = .sending i m) (hok : s.pong.pushed = some ok) :
    Inv c iters { s with echo := if ok = 0 then .send i m else .head (i + 1) } := by
  have hecho := h.echo
  rw [hat] at hecho
  obtain ⟨htaken, hends, hi, -, -, hfirst, hle⟩ := hecho
  obtain rfl := eq_one hok hfirst hle
  rw [hok] at hends
  have hlen := hends.length_eq
  refine h.echoGo ⟨?_, ?_, succ_le hi⟩
  · rw [toNat_succ hi]
    exact htaken
  · rw [toNat_succ hi]
    exact hlen

/-- A step of the echo process. -/
theorem inv_echo (h : Inv c iters s) (hstep : s.echoStep c.slots iters = some s') :
    Inv c iters s' := by
  have hecho := h.echo
  cases hat : s.echo with
  | attachIn =>
    simp only [echoStep, hat] at hstep
    split_ifs at hstep
    · rw [hat] at hecho
      cases hstep
      exact h.echoGo hecho
    · obtain ⟨ping, hload, rfl⟩ := Option.map_eq_some_iff.mp hstep
      rw [← hat]
      exact inv_attachIn h hat hload
  | attachOut =>
    simp only [echoStep, hat] at hstep
    split_ifs at hstep
    · rw [hat] at hecho
      cases hstep
      refine h.echoGo ⟨?_, ?_, UInt64.zero_le⟩
      · rw [hecho.1]
        rfl
      · rw [hecho.2]
        rfl
    · obtain ⟨pong, hload, rfl⟩ := Option.map_eq_some_iff.mp hstep
      rw [← hat]
      exact inv_attachOut h hat hload
  | killed => simp [echoStep, hat] at hstep
  | head i =>
    rw [hat] at hecho
    obtain ⟨htaken, hanswered, hle⟩ := hecho
    simp only [echoStep, hat, Option.some.injEq] at hstep
    subst hstep
    split_ifs with hi
    · exact h.echoGo ⟨htaken, hanswered, hi⟩
    · exact h.echoGo ⟨htaken, hanswered, UInt64.le_antisymm hle (UInt64.not_lt.mp hi)⟩
  | recv i =>
    simp only [echoStep, hat] at hstep
    obtain ⟨ping, hcall, rfl⟩ := Option.map_eq_some_iff.mp hstep
    exact inv_echoRecv h hat hcall
  | receiving i =>
    simp only [echoStep, hat] at hstep
    split at hstep
    next =>
      obtain ⟨ping, hact, rfl⟩ := Option.map_eq_some_iff.mp hstep
      rw [← hat]
      exact inv_echoReceiving h hat hact
    next hnone =>
      rw [hat] at hecho
      obtain ⟨hends, hanswered, hi, -⟩ := hecho
      rw [hnone] at hends
      cases hstep
      exact h.echoGo ⟨hends.length_eq, hanswered, hi⟩
    next m rest hpopped =>
      cases hstep
      exact inv_echoTaken h hat hpopped
  | send i m =>
    simp only [echoStep, hat] at hstep
    obtain ⟨pong, hcall, rfl⟩ := Option.map_eq_some_iff.mp hstep
    exact inv_echoSend h hat hcall
  | sending i m =>
    simp only [echoStep, hat] at hstep
    split at hstep
    next =>
      obtain ⟨pong, hact, rfl⟩ := Option.map_eq_some_iff.mp hstep
      rw [← hat]
      exact inv_echoSending h hat hact
    next ok hok =>
      cases hstep
      exact inv_echoSent h hat hok
  | done i => simp [echoStep, hat] at hstep

/-- Time passes. -/
theorem inv_tick {now : UInt64} (h : Inv c iters s) (hle : s.clock ≤ now) :
    Inv c iters { s with clock := now } := by
  refine ⟨h.ping, h.pong, h.parent.frame rfl rfl rfl rfl hle,
    h.echo.frame rfl rfl List.prefix_rfl rfl rfl hle, ?_, ?_, h.samples⟩
  · intro k m hm
    exact ⟨(h.requests k m hm).1, UInt64.le_trans (h.requests k m hm).2 hle⟩
  · intro k r hr
    exact (h.replies k r hr).mono List.prefix_rfl hle

/-- The parent gives up, and kills the echo process. -/
theorem inv_timeout (h : Inv c iters s) (hwaits : s.waits) :
    Inv c iters { s with parent := .failed, echo := .killed } := by
  have hparent := h.parent
  obtain ⟨h₁, h₂, h₃, h₄⟩ := h.inStep
  have hnone : s.ping.log.published = [] ∧ s.pong.log.released = [] ∧ s.parent.round = 0 := by
    rcases of_decide_eq_true hwaits with hat | hat <;> rw [hat] at hparent ⊢
    · exact ⟨hparent.1, hparent.2, rfl⟩
    · exact ⟨hparent.1, hparent.2, rfl⟩
  have hlen : s.ping.log.published.length = 0 := by rw [hnone.1, List.length_nil]
  have hecho : EchoPc.killed.Inv (rounds iters) s.ping s.pong s.clock :=
    ⟨List.length_eq_zero_iff.mp (by omega), List.length_eq_zero_iff.mp (by omega)⟩
  exact (h.echoGo hecho).parentGo ⟨hnone.1, hnone.2.1⟩ hnone.2.2.symm

/-- Every step keeps the invariant. -/
theorem inv_step {a : PingPongAct} (h : Inv c iters s) (hstep : step c.slots iters s a = some s') :
    Inv c iters s' := by
  rcases a with now | _ | _ | _ | _
  · simp only [step] at hstep
    split_ifs at hstep with hle
    cases hstep
    exact inv_tick h hle
  · simp only [step] at hstep
    split_ifs at hstep with hwaits
    cases hstep
    exact inv_timeout h hwaits
  · simp only [step] at hstep
    split_ifs at hstep with hattaches
    cases hstep
    have hecho := h.echo
    rcases of_decide_eq_true hattaches with hat | hat <;> rw [hat] at hecho <;> exact h.echoGo hecho
  · exact inv_parent h hstep
  · exact inv_echo h hstep

theorem inv_of_reachable {clock : UInt64} {slots : Role → ℕ → Message}
    (run : Reachable (step c.slots iters) (start c.slots clock slots) s) : Inv c iters s :=
  run.invariant (inv_start c iters clock slots) fun _ _ _ h _ hstep => inv_step h hstep

/-! ## The benchmark -/

/-- Along every run of the benchmark at most one message is under way, so no `try_push` that
returns has been refused; reply `k` is request `k` with another `sentNs`, which its checksum does
not cover; and a parent that is done has asked and heard every round. -/
theorem in_step {L : Layout} {name : String} {requested : UInt64} {calls : CreateCalls}
    {g : Geometry} (hcreate : create L name requested calls = .ok g) (iters clock : UInt64)
    (slots : Role → ℕ → Message)
    (run : Reachable (step g.capacity iters) (start g.capacity clock slots) s) :
    InStep s ∧
      (∀ i t0, s.parent = .sending i t0 → s.ping.pushed ≠ some 0) ∧
      (∀ i m, s.echo = .sending i m → s.pong.pushed ≠ some 0) ∧
      (∀ k r, s.pong.log.published[k]? = some r →
        r.checksum = checksumOf r ∧ ∃ t0 ≤ r.sentNs,
          s.ping.log.published[k]? = some (makeMessage (.ofNat k) t0) ∧
          r = { makeMessage (.ofNat k) t0 with sentNs := r.sentNs }) ∧
      (∀ i, s.parent = .done i → s.ping.log.published.length = (rounds iters).toNat ∧
        s.pong.log.released.length = (rounds iters).toNat) := by
  have h := inv_of_reachable (c := .ofCreate hcreate) run
  have hparent := h.parent
  have hecho := h.echo
  refine ⟨h.inStep, ?_, ?_, ?_, ?_⟩
  · intro i t0 hat
    rw [hat] at hparent
    exact hparent.2.2.2.2.2.1
  · intro i m hat
    rw [hat] at hecho
    exact hecho.2.2.2.2.2.1
  · intro k r hr
    obtain ⟨m, hm, heq, hle, -⟩ := h.replies k r hr
    have hmade := (h.requests k m hm).1
    rw [hmade] at hm heq
    refine ⟨?_, m.sentNs, hle, hm, heq⟩
    rw [heq]
    exact checksum_makeMessage (.ofNat k) m.sentNs
  · intro i hat
    rw [hat] at hparent
    obtain ⟨hasked, hheard, rfl⟩ := hparent
    exact ⟨hasked, hheard⟩

/-- Along every run each sample is of the round it counts for : no difference of times has
wrapped, and the one-way time is not above the round trip. A parent that is done has `iters`
samples of either kind. The rounds fit 64 bits for every `iters` that `rtt.reserve(iters)` takes :
for a larger one it throws before the first round. -/
theorem samples_exact {L : Layout} {name : String} {requested : UInt64} {calls : CreateCalls}
    {g : Geometry} (hcreate : create L name requested calls = .ok g) {iters : UInt64}
    (hiters : iters.toNat + (iters.toNat / 10 + 1) < 2 ^ 64) (clock : UInt64)
    (slots : Role → ℕ → Message)
    (run : Reachable (step g.capacity iters) (start g.capacity clock slots) s) :
    (∀ k r o, s.rtt[k]? = some r → s.oneWay[k]? = some o → o ≤ r ∧
      RoundTimes s.ping.log.published s.pong.log.released (iters.toNat / 10 + 1 + k) r o) ∧
      ∀ i, s.parent = .done i → s.rtt.length = iters.toNat ∧ s.oneWay.length = iters.toNat := by
  have h := inv_of_reachable (c := .ofCreate hcreate) run
  have hwarmup : (warmup iters).toNat = iters.toNat / 10 + 1 := by
    have hten : (10 : UInt64).toNat = 10 := rfl
    rw [warmup, UInt64.toNat_add, UInt64.toNat_div, UInt64.toNat_one, hten]
    omega
  have hrounds : (rounds iters).toNat = iters.toNat + (iters.toNat / 10 + 1) := by
    rw [rounds, UInt64.toNat_add, hwarmup]
    omega
  have hsamples := h.samples
  rw [hwarmup] at hsamples
  refine ⟨?_, ?_⟩
  · intro k r o hr ho
    have htimed := hsamples.timed k r o hr ho
    refine ⟨?_, htimed⟩
    obtain ⟨m, a, t1, -, -, hma, hat, hr', ho'⟩ := htimed
    rw [UInt64.le_iff_toNat_le] at hma hat ⊢
    omega
  · intro i hat
    have hparent := h.parent
    rw [hat] at hparent hsamples
    obtain ⟨-, -, rfl⟩ := hparent
    have hrtt := hsamples.rtt_length
    have honeWay := hsamples.oneWay_length
    rw [ParentPc.round, hrounds] at hrtt honeWay
    exact ⟨by omega, by omega⟩

/-- Two rounds, one of them sampled. -/
def twoRounds : List PingPongAct :=
  [List.replicate 6 .echo, List.replicate 9 .parent, [.tick 5], List.replicate 16 .echo,
    [.tick 9], List.replicate 9 .parent, [.tick 10], List.replicate 8 .parent, [.tick 15],
    List.replicate 17 .echo, [.tick 17], List.replicate 10 .parent].flatten

theorem twoRounds_ends :
    (exec (step 2 1) (fun _ _ => True) (start 2 0 fun _ _ => makeMessage 0 0) twoRounds).map
      (fun s => (s.parent, s.rtt, s.oneWay)) = some (.done 2, [7], [5]) := by
  decide +kernel

theorem in_step_twoRounds :
    ∃ s, Reachable (step 2 1) (start 2 0 fun _ _ => makeMessage 0 0) s ∧
      s.ping.log.published.length = 2 ∧ s.pong.log.released.length = 2 := by
  obtain ⟨s, hs, hend⟩ := Option.map_eq_some_iff.mp twoRounds_ends
  have run := Reaches.of_exec hs
  have hcreate : create messageLayout "/q" 1 ⟨none, none, none⟩ =
      .ok (createdGeometry messageLayout 2 352) := by decide
  exact ⟨s, run, (in_step hcreate 1 0 _ run).2.2.2.2 2 (congrArg Prod.fst hend)⟩

theorem samples_exact_twoRounds :
    ∃ s, Reachable (step 2 1) (start 2 0 fun _ _ => makeMessage 0 0) s ∧
      s.rtt = [7] ∧ RoundTimes s.ping.log.published s.pong.log.released 1 7 5 := by
  obtain ⟨s, hs, hend⟩ := Option.map_eq_some_iff.mp twoRounds_ends
  have run := Reaches.of_exec hs
  have hcreate : create messageLayout "/q" 1 ⟨none, none, none⟩ =
      .ok (createdGeometry messageLayout 2 352) := by decide
  have hrtt : s.rtt = [7] := congrArg (fun out => out.2.1) hend
  have honeWay : s.oneWay = [5] := congrArg (fun out => out.2.2) hend
  refine ⟨s, run, hrtt, ?_⟩
  exact ((samples_exact hcreate (by decide) 0 _ run).1 0 7 5 (by rw [hrtt]; rfl)
    (by rw [honeWay]; rfl)).2

end PingPong

end ShmSpsc
