import ShmSpsc.Handles
import ShmSpsc.Moves
import ShmSpsc.Tokens

/-!
# Mappings

A segment that `mmap` has returned is a token : `World.maps` and `World.resets` are the segments
that a step maps and resets, and a `Ledger` is a world with the lists of both. Whatever is read
off a segment (`Reading`), its mapping or the name it has to unlink, the steps of a process make,
spend and swap tokens of the handles that hold them (`World.turn_step`), so every mapping and
every owned name is with one handle or has been given back once (`Ledger.Books.step`).
-/

namespace ShmSpsc

open Transition
open Function (update update_self update_of_ne)

variable {T τ : Type*}

theorem Setup.name_ne (S : Setup) : S.name ≠ "" := by
  intro hname
  have hnamed := S.named
  rw [hname] at hnamed
  exact absurd hnamed (by decide)

namespace World

/-! ## What a step maps and resets -/

/-- The segment that `ShmSegment::open` returns. -/
def opens (w : World T) (name : String) (ans : Answers) : Option Segment :=
  match w.openName name ans with
  | .ok (o, size) => some ⟨some ⟨w.nextMapping, o⟩, size, false, name⟩
  | .error _ => none

/-- The segment that the next step of a call maps. -/
def mapsCall (w : World T) (ans : Answers) : Call → Option Segment
  | .create S _ _ o .mmap =>
    if S.calls.mmap = none then some ⟨some ⟨w.nextMapping, o⟩, S.bytes, true, S.name⟩ else none
  | .attach name _ _ _ (.opening _) => w.opens name ans
  | .openSegment name _ => w.opens name ans
  | _ => none

/-- The segment that the action maps. -/
def maps (w : World T) : WorldAct → Option Segment
  | .step p ans => w.mapsCall ans (w.proc p).call
  | _ => none

/-- The segment that the next step of a call resets : that of a handle that is released, or the
one that the temporary had before it is assigned another one. -/
def resetsCall (w : World T) (p : ℤ) (ans : Answers) : Call → Option Segment
  | .resetting v _ => (w.var p v).map Queue.seg
  | c => if (w.mapsCall ans c).isSome then (w.var p tmp).map Queue.seg else none

/-- The segment that the action resets. -/
def resets (w : World T) : WorldAct → Option Segment
  | .step p ans => w.resetsCall p ans (w.proc p).call
  | _ => none

/-- What the handles hold, as `read` off their segments. -/
def held (read : Segment → Option τ) (w : World T) (i : ℤ × ℕ) : Option τ :=
  (w.var i.1 i.2).bind fun q => read q.seg

end World

/-- A world, the segments mapped so far, and those reset. -/
structure Ledger (T : Type*) where
  world : World T
  made : List Segment
  reset : List Segment

namespace Ledger

/-- One step. -/
def step (l : Ledger T) (a : WorldAct) : Option (Ledger T) :=
  (l.world.step a).map fun w =>
    ⟨w, l.made ++ (l.world.maps a).toList, l.reset ++ (l.world.resets a).toList⟩

/-- Nobody has done anything. -/
def start (slots : ℕ → T) : Ledger T := ⟨World.start slots, [], []⟩

/-- The tokens that `read` finds in the segments. -/
def tokens (read : Segment → Option τ) (l : Ledger T) : Tokens.State (ℤ × ℕ) τ where
  made := l.made.filterMap read
  spent := l.reset.filterMap read
  held := l.world.held read

end Ledger

/-- What is read off a segment belongs to its mapping. -/
structure Reading (read : Segment → Option τ) : Prop where
  null : read .null = none
  addr : ∀ s s' t, read s = some t → read s' = some t → s.addr = s'.addr

namespace World

variable {w w' : World T} {a : WorldAct} {p : ℤ} {v u o : ℕ} {read : Segment → Option τ}

/-! ## The spec of each operation -/

theorem mappings_clearPid {h : Queue} :
    (w.clearPid p h).unmapped = w.unmapped ∧ (w.clearPid p h).nextMapping = w.nextMapping := by
  unfold clearPid
  split
  · split_ifs <;> exact ⟨rfl, rfl⟩
  · exact ⟨rfl, rfl⟩

theorem nextMapping_resetSegment {seg : Segment} :
    (w.resetSegment seg).nextMapping = w.nextMapping := by
  unfold resetSegment
  split_ifs <;> rfl

/-! ## The handles after a step -/

/-- No handle is stored. -/
theorem held_congr (hothers : ∀ q, q ≠ p → w'.proc q = w.proc q)
    (hvars : (w'.proc p).vars = (w.proc p).vars) : w'.held read = w.held read := by
  funext ⟨q, c⟩
  by_cases hq : q = p
  · subst hq
    simp [held, var, hvars]
  · simp [held, var, hothers q hq]

theorem held_goto {c : Call} : (w.goto p c).held read = w.held read :=
  held_congr (fun _ hq => proc_setProc_of_ne hq) vars_goto

/-- One handle is stored. -/
theorem held_update {x : Option Queue} (hothers : ∀ q, q ≠ p → w'.proc q = w.proc q)
    (hvars : (w'.proc p).vars = update (w.proc p).vars v x) :
    w'.held read = update (w.held read) (p, v) (x.bind fun q => read q.seg) := by
  funext ⟨q, c⟩
  by_cases hq : q = p
  · subst hq
    by_cases hc : c = v
    · subst hc
      simp [held, var, hvars]
    · simp [held, var, hvars, hc]
  · simp [held, var, hothers q hq, hq]

/-- One handle is stored, with what was there before. -/
theorem held_same {x : Option Queue} (hothers : ∀ q, q ≠ p → w'.proc q = w.proc q)
    (hvars : (w'.proc p).vars = update (w.proc p).vars v x)
    (hx : (x.bind fun q => read q.seg) = w.held read (p, v)) : w'.held read = w.held read := by
  rw [held_update hothers hvars, hx, Function.update_eq_self]

/-- A handle is moved, and leaves in its place what the other one had. -/
theorem held_move {x : Option Queue} (hothers : ∀ q, q ≠ p → w'.proc q = w.proc q)
    (hvars : (w'.proc p).vars = update (update (w.proc p).vars v ((w.proc p).vars u)) u x)
    (hx : (x.bind fun q => read q.seg) = w.held read (p, v)) :
    w'.held read = w.held read ∘ Equiv.swap (p, u) (p, v) := by
  rw [Equiv.comp_swap_eq_update, ← hx]
  have hmid : (w.setVar p v ((w.proc p).vars u)).held read =
      update (w.held read) (p, v) (((w.proc p).vars u).bind fun q => read q.seg) :=
    held_update (fun q hq => proc_setProc_of_ne hq) vars_setVar
  rw [show w.held read (p, u) = ((w.proc p).vars u).bind fun q => read q.seg from rfl, ← hmid]
  refine held_update (fun q hq => ?_) ?_
  · exact (hothers q hq).trans (proc_setProc_of_ne hq).symm
  · rw [hvars, vars_setVar]

/-- A step that maps `made` and resets `reset`. -/
structure Turn (read : Segment → Option τ) (w w' : World T) (made reset : Option Segment) :
    Prop where
  next : w'.nextMapping = w.nextMapping + made.toList.length
  unmapped : w'.unmapped = w.unmapped ++ (reset.bind Segment.addr).toList
  tokens : ∀ ts us, (∀ s ∈ made, ∀ t ∈ read s, t ∉ ts) →
    Relation.ReflTransGen Tokens.Step ⟨ts, us, w.held read⟩
      ⟨ts ++ (made.bind read).toList, us ++ (reset.bind read).toList, w'.held read⟩

namespace Turn

theorem quiet (hnext : w'.nextMapping = w.nextMapping) (hunmapped : w'.unmapped = w.unmapped)
    (hheld : w'.held read = w.held read) : Turn read w w' none none where
  next := hnext
  unmapped := hunmapped.trans (List.append_nil _).symm
  tokens ts us _ := by
    rw [hheld]
    simpa using Relation.ReflTransGen.refl

/-- Two handles are swapped, or one is moved. -/
theorem swap (hnext : w'.nextMapping = w.nextMapping) (hunmapped : w'.unmapped = w.unmapped)
    {i j : ℤ × ℕ} (hheld : w'.held read = w.held read ∘ Equiv.swap i j) :
    Turn read w w' none none where
  next := hnext
  unmapped := hunmapped.trans (List.append_nil _).symm
  tokens ts us _ := by
    rw [hheld]
    simpa using Relation.ReflTransGen.single (Tokens.Step.swap (s := ⟨ts, us, w.held read⟩) i j)

theorem release {next : Next} (h : w.release p v next = some w') : Turn read w w' none none := by
  have hothers : ∀ q, q ≠ p → w'.proc q = w.proc q := fun q hq => proc_release hq h
  obtain ⟨q, hq, rfl⟩ := release_eq h
  have hvars : ((((w.clearPid p q).setVar p v (some q.released)).goto p (.resetting v next)).proc
      p).vars = update (w.proc p).vars v (some q.released) := by
    rw [vars_goto, vars_setVar, proc_clearPid]
  refine .quiet mappings_clearPid.2 mappings_clearPid.1 (held_same hothers hvars ?_)
  simp [held, hq, Queue.released]

/-- The temporary is assigned a new mapping : what it had is spent, then the new one is made. -/
theorem mapTmp {q : Queue} {size : UInt64} {owner whole : Bool} {name : String} {c : Call}
    (hq : w.var p tmp = some q) :
    Turn read w ((w.mapTmp p q o size owner name whole).goto p c)
      (some ⟨some ⟨w.nextMapping, o⟩, size, owner, name⟩) ((w.var p tmp).map Queue.seg) where
  next := rfl
  unmapped := by
    rw [hq]
    exact unmapped_resetSegment
  tokens ts us hfresh := by
    have hheld : ((w.mapTmp p q o size owner name whole).goto p c).held read =
        update (w.held read) (p, tmp) (read ⟨some ⟨w.nextMapping, o⟩, size, owner, name⟩) :=
      held_update (fun r hr => by simp [goto, proc_setProc_of_ne hr, proc_mapTmp hr])
        (vars_goto.trans vars_mapTmp)
    have hspent : ((w.var p tmp).map Queue.seg).bind read = w.held read (p, tmp) := by
      rw [Option.bind_map]
      rfl
    have hspend := Tokens.Step.spend (s := ⟨ts, us, w.held read⟩) (p, tmp)
    have hmake := Tokens.Step.make (s := ⟨ts, us ++ (w.held read (p, tmp)).toList,
      update (w.held read) (p, tmp) none⟩) (p, tmp)
      (read ⟨some ⟨w.nextMapping, o⟩, size, owner, name⟩) (fun t ht => hfresh _ rfl t ht) (by simp)
    rw [Function.update_idem] at hmake
    rw [hheld, hspent]
    exact (Relation.ReflTransGen.single hspend).tail hmake

/-- What a handle had is spent. -/
theorem spend (hnext : w'.nextMapping = w.nextMapping)
    (hunmapped : w'.unmapped =
      w.unmapped ++ (((w.var p v).map Queue.seg).bind Segment.addr).toList)
    (hheld : w'.held read = update (w.held read) (p, v) none) :
    Turn read w w' none ((w.var p v).map Queue.seg) where
  next := hnext
  unmapped := hunmapped
  tokens ts us _ := by
    have hspent : ((w.var p v).map Queue.seg).bind read = w.held read (p, v) := by
      rw [Option.bind_map]
      rfl
    rw [hheld, hspent]
    simpa using Relation.ReflTransGen.single
      (Tokens.Step.spend (s := ⟨ts, us, w.held read⟩) (p, v))

/-- Handles are swapped after a step. -/
theorem tail {w₁ : World T} {reset : Option Segment} (h : Turn read w w₁ none reset)
    (hnext : w'.nextMapping = w₁.nextMapping) (hunmapped : w'.unmapped = w₁.unmapped)
    {i j : ℤ × ℕ} (hheld : w'.held read = w₁.held read ∘ Equiv.swap i j) :
    Turn read w w' none reset where
  next := hnext.trans h.next
  unmapped := hunmapped.trans h.unmapped
  tokens ts us hfresh := by
    rw [hheld]
    exact (h.tokens ts us hfresh).tail (.swap i j)

/-- `seg_.reset()` : what the handle had is spent, and the handle, which is empty now, swapped. -/
theorem reset {next : Next} (hnull : read .null = none) (h : w.reset p v next = some w') :
    Turn read w w' none ((w.var p v).map Queue.seg) := by
  unfold World.reset at h
  split at h
  next q hq =>
    -- after `seg_.reset()`, the handle being `x`
    have hspend (x : Option Queue) (c : Call) (hx : (x.bind fun q => read q.seg) = none) :
        Turn read w (((w.resetSegment q.seg).setVar p v x).goto p c) none
          ((w.var p v).map Queue.seg) := by
      refine spend nextMapping_resetSegment (unmapped_resetSegment.trans (by rw [hq]; rfl)) ?_
      rw [held_goto, ← hx]
      refine held_update (fun r hr => ?_) (by rw [vars_setVar, proc_resetSegment])
      rw [setVar, proc_setProc_of_ne hr, proc_resetSegment]
    have hempty : ((some { q with seg := Segment.null }).bind fun q => read q.seg) = none := hnull
    cases next with
    | keep =>
      cases h
      exact hspend _ _ hempty
    | drop =>
      cases h
      exact hspend _ _ rfl
    | swap u =>
      cases h
      refine (hspend _ .idle hempty).tail rfl rfl (i := (p, u)) (j := (p, v)) ?_
      rw [held_goto, held_goto]
      refine held_move (x := some { q with seg := Segment.null }) (fun r hr => ?_) ?_ ?_
      · simp [setVar, proc_setProc_of_ne hr]
      · simp only [vars_setVar, proc_resetSegment, var]
        by_cases huv : u = v
        · subst huv
          simp
        · simp [huv]
      · simp [held, var]
  next => cases h

theorem bindStep {role : Role} {b : BindPc} {ans : Answers} {more : BindPc → Call}
    {bound : Handle → Call} (h : w.bindStep p role o b ans more bound = some w') :
    Turn read w w' none none := by
  obtain ⟨q, x, hvar, hframe, -, -, hvars, hleaves⟩ := bindStep_cases h
  have hseg : x.seg = q.seg := by
    have hassign : (q.assign role (w.objects o) b).seg = q.seg := by
      cases b <;> rfl
    rw [← hassign]
    cases hout : (ShmSpsc.bindStep role p (w.objects o) ans b).2 with
    | more b' =>
      rw [hout] at hleaves
      rw [hleaves.1]
    | bound handle =>
      rw [hout] at hleaves
      rw [hleaves.1]
    | threw e =>
      rw [hout] at hleaves
      rw [hleaves.1]
  have hmappings : w'.nextMapping = w.nextMapping ∧ w'.unmapped = w.unmapped := by
    unfold World.bindStep at h
    split at h
    · cases h
      split <;> exact ⟨rfl, rfl⟩
    · cases h
  exact .quiet hmappings.1 hmappings.2
    (held_same hframe.others hvars (by simp [held, var, hvar, hseg]))

end Turn

/-! ## Every step -/

theorem opens_ok {name : String} {ans : Answers} {size : UInt64}
    (h : w.openName name ans = .ok (o, size)) :
    w.opens name ans = some ⟨some ⟨w.nextMapping, o⟩, size, false, name⟩ := by
  rw [opens, h]

theorem opens_error {name : String} {ans : Answers} {e : Exception}
    (h : w.openName name ans = .error e) : w.opens name ans = none := by
  rw [opens, h]

theorem resetsCall_of_maps {ans : Answers} {c : Call} (hc : ∀ v next, c ≠ .resetting v next) :
    w.resetsCall p ans c =
      if (w.mapsCall ans c).isSome then (w.var p tmp).map Queue.seg else none := by
  cases c with
  | resetting v next => exact absurd rfl (hc v next)
  | _ => rfl

/-- The next step of a call. -/
theorem turn_stepCall {ans : Answers} {c : Call} (hnull : read .null = none)
    (h : w.stepCall p ans c = some w') :
    Turn read w w' (w.mapsCall ans c) (w.resetsCall p ans c) := by
  have hothers : ∀ q, q ≠ p → w'.proc q = w.proc q := fun q hq => proc_stepCall hq h
  have hsame (hnext : w'.nextMapping = w.nextMapping) (hunmapped : w'.unmapped = w.unmapped)
      (hvars : (w'.proc p).vars = (w.proc p).vars) : Turn read w w' none none :=
    .quiet hnext hunmapped (held_congr hothers hvars)
  cases c with
  | idle => cases h
  | unlink S whole v =>
    cases h
    exact hsame rfl rfl vars_goto
  | shmOpen S whole v =>
    cases h
    refine hsame ?_ ?_ ?_ <;> unfold shmOpen <;> dsimp only <;> split
    all_goals first | rfl | exact vars_throw | exact vars_goto
  | create S whole v o pc =>
    cases pc with
    | mmap =>
      simp only [stepCall, createStep, ShmSpsc.createStep] at h
      rw [resetsCall_of_maps (by simp)]
      cases hmmap : S.calls.mmap with
      | some e =>
        simp only [hmmap] at h
        split at h <;> cases h
        · rw [mapsCall, if_neg (by simp [hmmap])]
          exact hsame rfl rfl vars_throw
        · rename_i hout
          simp at hout
      | none =>
        simp only [hmmap] at h
        split at h <;> cases h
        · rename_i hout
          simp at hout
        · rename_i q hq _
          rw [mapsCall, if_pos hmmap]
          exact .mapTmp hq
    | binding b => exact .bindStep h
    | _ =>
      cases h
      refine hsame ?_ ?_ ?_ <;> unfold storeStep <;> dsimp only <;> split
      all_goals first | rfl | exact vars_throw | exact vars_goto
  | cleanup name o =>
    cases h
    exact hsame rfl rfl vars_goto
  | attach name role v o pc =>
    cases pc with
    | opening A =>
      simp only [stepCall, attachStep] at h
      split at h <;> cases h
      next q o' mapped hq hopen =>
        rw [resetsCall_of_maps (by simp), mapsCall, opens_ok hopen]
        exact .mapTmp hq
      next q e hq hopen =>
        rw [resetsCall_of_maps (by simp), mapsCall, opens_error hopen]
        refine hsame ?_ ?_ ?_ <;> split_ifs
        all_goals first | rfl | exact vars_throw | exact vars_goto
    | binding b => exact .bindStep h
    | _ =>
      cases h
      refine hsame ?_ ?_ ?_ <;> unfold checkStep <;> split
      all_goals first | rfl | exact vars_throw | exact vars_goto
  | openSegment name v =>
    simp only [stepCall] at h
    split at h <;> cases h
    next q o' mapped hq hopen =>
      rw [resetsCall_of_maps (by simp), mapsCall, opens_ok hopen]
      exact .mapTmp hq
    next q e hq hopen =>
      rw [resetsCall_of_maps (by simp), mapsCall, opens_error hopen]
      exact hsame rfl rfl vars_throw
  | placing v =>
    simp only [stepCall] at h
    split at h
    · exact .release h
    next hvar =>
      cases h
      refine .swap rfl rfl (held_move hothers (by rw [vars_goto, vars_setVar, vars_setVar]; rfl) ?_)
      simp [held, hvar, Queue.null, hnull]
  | destroying v => exact .release h
  | resetting v next => exact .reset hnull h

/-- A call of a process between two calls, when there is no temporary. -/
theorem turn_startCall (hnull : read .null = none) (htmp : w.var a.pid tmp = none)
    (h : w.startCall a = some w') : Turn read w w' none none := by
  have hothers : ∀ q, q ≠ a.pid → w'.proc q = w.proc q := fun q hq => proc_startCall hq h
  -- a null handle where there was none
  have fresh {v : ℕ} (hv : w.var a.pid v = none) (hnext : w'.nextMapping = w.nextMapping)
      (hunmapped : w'.unmapped = w.unmapped)
      (hvars : (w'.proc a.pid).vars = update (w.proc a.pid).vars v (some .null)) :
      Turn read w w' none none := by
    refine .quiet hnext hunmapped (held_same hothers hvars ?_)
    simp [held, hv, Queue.null, hnull]
  cases a with
  | create p v S whole =>
    simp only [startCall] at h
    split_ifs at h
    cases h
    exact fresh htmp rfl rfl (vars_goto.trans vars_setVar)
  | attach p v name role A =>
    simp only [startCall] at h
    split_ifs at h
    cases h
    exact fresh htmp rfl rfl (vars_goto.trans vars_setVar)
  | openSegment p v name =>
    simp only [startCall] at h
    split_ifs at h
    cases h
    exact fresh htmp rfl rfl (vars_goto.trans vars_setVar)
  | construct p v =>
    simp only [startCall] at h
    split_ifs at h with hguard
    cases h
    exact fresh hguard.2 rfl rfl vars_setVar
  | moveConstruct p v u =>
    simp only [startCall] at h
    split at h
    next q hv hu =>
      split_ifs at h
      cases h
      refine .swap rfl rfl (held_move (p := p) (v := v) (u := u) (x := some .null) hothers ?_ ?_)
      · rw [vars_setVar, vars_setVar, ← hu]
        rfl
      · simp [held, hv, Queue.null, hnull]
    next => cases h
  | moveAssign p v u =>
    simp only [startCall] at h
    split at h
    · split_ifs at h
      · cases h
        exact .quiet rfl rfl rfl
      · exact .release h
    · cases h
  | swapWith p v u =>
    simp only [startCall] at h
    split at h
    next q q' hv hu =>
      cases h
      refine .swap rfl rfl (held_move (p := p) (v := v) (u := u) (x := some q) hothers ?_ ?_)
      · rw [vars_setVar, vars_setVar, ← hu]
        rfl
      · simp [held, hv]
    next => cases h
  | detach p v => exact .release h
  | destroy p v => exact .release h
  | remove p name =>
    cases h
    exact .quiet rfl rfl rfl
  | step p ans => cases h
  | die p => cases h

/-- Every step of a world whose processes have no temporary between two calls. -/
theorem turn_step (hnull : read .null = none)
    (htmp : ∀ p, (w.proc p).call = .idle → w.var p tmp = none) (h : w.step a = some w') :
    Turn read w w' (w.maps a) (w.resets a) := by
  obtain ⟨-, ⟨p, rfl, rfl⟩ | ⟨p, ans, rfl, -, hcall⟩ | ⟨hidle, hstart⟩⟩ := step_cases h
  · exact .quiet rfl rfl rfl
  · exact turn_stepCall hnull hcall
  · have hturn : Turn read w w' none none := turn_startCall hnull (htmp _ hidle) hstart
    cases a with
    | step p ans => cases hstart
    | _ => exact hturn

/-- What is mapped has a new identity, and only `create` maps as an owner, under a name that is
not empty. -/
theorem maps_cases {s : Segment} (h : w.maps a = some s) :
    (∃ o, s.addr = some ⟨w.nextMapping, o⟩) ∧ (s.owner = true → s.name ≠ "") := by
  have hopens {name : String} {ans : Answers} (h : w.opens name ans = some s) :
      (∃ o, s.addr = some ⟨w.nextMapping, o⟩) ∧ (s.owner = true → s.name ≠ "") := by
    unfold opens at h
    split at h <;> cases h
    exact ⟨⟨_, rfl⟩, by simp⟩
  cases a with
  | step p ans =>
    simp only [maps] at h
    generalize (w.proc p).call = c at h
    cases c with
    | create S whole v o pc =>
      cases pc with
      | mmap =>
        simp only [mapsCall] at h
        split_ifs at h
        cases h
        exact ⟨⟨o, rfl⟩, fun _ => S.name_ne⟩
      | _ => cases h
    | attach name role v o pc =>
      cases pc with
      | opening A => exact hopens h
      | _ => cases h
    | openSegment name v => exact hopens h
    | _ => cases h
  | _ => cases h

end World

/-! ## Books -/

namespace Ledger

variable {l l' : Ledger T} {a : WorldAct} {read : Segment → Option τ}

/-- The lists tell what was mapped and unmapped, and the tokens are linear. -/
structure Books (read : Segment → Option τ) (l : Ledger T) : Prop where
  ids : l.made.map (fun s => s.addr.map Mapping.id) = (List.range l.world.nextMapping).map some
  unmapped : l.world.unmapped = l.reset.filterMap Segment.addr
  linear : Tokens.Linear (l.tokens read)

theorem books_start (slots : ℕ → T) : Books read (start slots) :=
  ⟨rfl, rfl, Tokens.Linear.start⟩

/-- A mapping that is made has an identity that no segment had. -/
theorem Books.id_lt (h : Books read l) {s : Segment} {m : Mapping} (hs : s ∈ l.made)
    (hm : s.addr = some m) : m.id < l.world.nextMapping := by
  have hmem : some m.id ∈ l.made.map fun s => s.addr.map Mapping.id :=
    List.mem_map.mpr ⟨s, hs, by rw [hm]; rfl⟩
  rw [h.ids] at hmem
  simpa using hmem

theorem Books.step (hread : Reading read) (h : Books read l)
    (htmp : ∀ p, (l.world.proc p).call = .idle → l.world.var p tmp = none)
    (hstep : l.step a = some l') : Books read l' := by
  obtain ⟨w', hw, rfl⟩ := Option.map_eq_some_iff.mp hstep
  have hturn : World.Turn read l.world w' (l.world.maps a) (l.world.resets a) :=
    World.turn_step hread.null htmp hw
  refine ⟨?_, ?_, ?_⟩
  · dsimp only
    rw [List.map_append, h.ids, hturn.next]
    cases hmaps : l.world.maps a with
    | none => simp
    | some s =>
      obtain ⟨o, ho⟩ := (World.maps_cases hmaps).1
      simp [ho, List.range_succ]
  · dsimp only
    rw [hturn.unmapped, List.filterMap_append, h.unmapped]
    cases l.world.resets a with
    | none => rfl
    | some s => cases hs : s.addr <;> simp [hs]
  · have hsteps := hturn.tokens (l.made.filterMap read) (l.reset.filterMap read) ?_
    · have hlist (x : Option Segment) : x.toList.filterMap read = (x.bind read).toList := by
        cases x with
        | none => rfl
        | some s => cases hs : read s <;> simp [hs]
      have hlinear := h.linear.steps hsteps
      rw [← hlist, ← hlist, ← List.filterMap_append, ← List.filterMap_append] at hlinear
      exact hlinear
    · intro s hs t ht hmem
      obtain ⟨s', hs', ht'⟩ := List.mem_filterMap.mp hmem
      obtain ⟨o, ho⟩ := (World.maps_cases hs).1
      have haddr := hread.addr s' s t ht' ht
      exact absurd (h.id_lt hs' (haddr.trans ho)) (lt_irrefl _)

end Ledger

end ShmSpsc
