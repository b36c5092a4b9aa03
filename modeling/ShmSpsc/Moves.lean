import ShmSpsc.Lifecycle

/-!
# Moves, member by member

The move operations of `ShmSegment` and `ShmSpscQueue` as the source writes them : `swap`
exchanges one member after the other, `ShmSegment::operator=` goes through a local that it
destroys, and `std::swap` of two segments through another one and two assignments.
`Storage.stdSwap_eq` and `Storage.swapWith_eq` : the two segments, and the two handles, are
exchanged, also when they are the same one, and every destructor on the way runs on a null
segment. `World.InStorage` compares the handles of a process with such a storage; the steps of
`World` that move handles or assign a segment are the ones computed here.
-/

namespace ShmSpsc

open Function (update update_self update_of_ne)

/-- Where a `ShmSegment` is : the `seg_` of a handle, or a local. -/
inductive Place where
  | member (v : ℕ)
  | temp (i : ℕ)
  deriving DecidableEq

/-- Handles, locals, and the calls of `munmap` and `shm_unlink` made so far. -/
structure Storage where
  queue : ℕ → Queue
  temp : ℕ → Segment
  munmapped : List Mapping
  unlinked : List String

/-- The names that `reset()` of the segment unlinks. -/
def Segment.unlinks (seg : Segment) : List String :=
  if seg.owner ∧ seg.name ≠ "" then [seg.name] else []

namespace Storage

/-! ## `ShmSegment` -/

/-- The segment at a place. -/
def seg (m : Storage) : Place → Segment
  | .member v => (m.queue v).seg
  | .temp i => m.temp i

/-- A segment stored at a place. -/
def set (m : Storage) (a : Place) (s : Segment) : Storage :=
  match a with
  | .member v => { m with queue := update m.queue v { m.queue v with seg := s } }
  | .temp i => { m with temp := update m.temp i s }

/-- `std::swap` of one member of two segments, `put s o` being `s` with the member of `o`. -/
def exchange (m : Storage) (a b : Place) (put : Segment → Segment → Segment) : Storage :=
  (m.set a (put (m.seg a) (m.seg b))).set b (put (m.seg b) (m.seg a))

/-- `ShmSegment::swap` -/
def swap (m : Storage) (a b : Place) : Storage :=
  (((m.exchange a b fun s o => { s with addr := o.addr }).exchange a b
    fun s o => { s with size := o.size }).exchange a b
    fun s o => { s with owner := o.owner }).exchange a b
    fun s o => { s with name := o.name }

/-- `ShmSegment::reset`, and so `~ShmSegment` -/
def reset (m : Storage) (a : Place) : Storage :=
  { m.set a .null with
    munmapped := m.munmapped ++ (m.seg a).addr.toList
    unlinked := m.unlinked ++ (m.seg a).unlinks }

/-- `ShmSegment(ShmSegment &&o)` -/
def moveConstruct (m : Storage) (a o : Place) : Storage := (m.set a .null).swap a o

/-- `ShmSegment::operator=(ShmSegment &&o)`, its local being `temp 1`. -/
def moveAssign (m : Storage) (a o : Place) : Storage :=
  if a = o then m else ((m.moveConstruct (.temp 1) o).swap a (.temp 1)).reset (.temp 1)

/-- `std::swap` of two segments, its local being `temp 0`. -/
def stdSwap (m : Storage) (a b : Place) : Storage :=
  (((m.moveConstruct (.temp 0) a).moveAssign a b).moveAssign b (.temp 0)).reset (.temp 0)

/-! ## `ShmSpscQueue` -/

/-- `std::swap` of one member of two handles. -/
def exchangeMember (m : Storage) (v u : ℕ) (put : Queue → Queue → Queue) : Storage :=
  { m with
    queue := update (update m.queue v (put (m.queue v) (m.queue u))) u
      (put (m.queue u) (m.queue v)) }

/-- The members of a handle after `seg_`, swapped one by one. -/
def swapMembers (m : Storage) (v u : ℕ) : Storage :=
  ((((((m.exchangeMember v u fun q o => { q with ctrl := o.ctrl }).exchangeMember v u
    fun q o => { q with slots := o.slots }).exchangeMember v u
    fun q o => { q with capacity := o.capacity }).exchangeMember v u
    fun q o => { q with role := o.role }).exchangeMember v u
    fun q o => { q with bound := o.bound }).exchangeMember v u
    fun q o => { q with readIdxCache := o.readIdxCache }).exchangeMember v u
    fun q o => { q with writeIdxCache := o.writeIdxCache }

/-- `swapWith` -/
def swapWith (m : Storage) (v u : ℕ) : Storage :=
  (m.stdSwap (.member v) (.member u)).swapMembers v u

/-- `ShmSpscQueue(ShmSpscQueue &&o)` -/
def construct (m : Storage) (v u : ℕ) : Storage :=
  { m with queue := update m.queue v .null }.swapWith v u

/-- The handle `v` when its `seg_.reset()` runs, and what follows. -/
def finish (m : Storage) (v : ℕ) : Next → Storage
  | .swap u => (m.reset (.member v)).swapWith v u
  | _ => m.reset (.member v)

/-- `seg_ = s` and `ctrl_ = seg_.data()`, the returned segment `s` being `temp 2`. -/
def assignSegment (m : Storage) (v : ℕ) (s : Segment) : Storage :=
  let m' := ((m.set (.temp 2) s).moveAssign (.member v) (.temp 2)).reset (.temp 2)
  { m' with queue := update m'.queue v { m'.queue v with ctrl := (m'.queue v).seg.addr } }

/-! ## What the storage holds -/

variable {m m' : Storage} {a b c : Place} {s : Segment} {v u : ℕ}

/-- Everything but the segments. -/
def rest (m : Storage) : (ℕ → Queue) × List Mapping × List String :=
  (fun v => { m.queue v with seg := .null }, m.munmapped, m.unlinked)

theorem ext_seg (hseg : m.seg = m'.seg) (hrest : m.rest = m'.rest) : m = m' := by
  obtain ⟨queue, temp, munmapped, unlinked⟩ := m
  obtain ⟨queue', temp', munmapped', unlinked'⟩ := m'
  simp only [rest, Prod.mk.injEq] at hrest
  obtain ⟨hqueue, rfl, rfl⟩ := hrest
  have hqueue : queue = queue' := by
    funext v
    have hv : (queue v).seg = (queue' v).seg := congrFun hseg (.member v)
    have hq := congrFun hqueue v
    simp only [Queue.mk.injEq, true_and] at hq
    cases hqv : queue v
    cases hqv' : queue' v
    simp_all
  have htemp : temp = temp' := funext fun i => congrFun hseg (.temp i)
  rw [hqueue, htemp]

@[simp] theorem seg_set : (m.set a s).seg = update m.seg a s := by
  funext b
  cases a with
  | member v =>
    cases b with
    | member u =>
      by_cases hu : u = v
      · subst hu
        simp [set, seg]
      · simp [set, seg, hu]
    | temp i => simp [set, seg]
  | temp i =>
    cases b with
    | member u => simp [set, seg]
    | temp j =>
      by_cases hj : j = i
      · subst hj
        simp [set, seg]
      · simp [set, seg, hj]

@[simp] theorem rest_set : (m.set a s).rest = m.rest := by
  cases a with
  | member v =>
    simp only [set, rest, Prod.mk.injEq, and_true]
    funext u
    by_cases hu : u = v
    · subst hu
      simp
    · simp [hu]
  | temp i => rfl

@[simp] theorem rest_exchange (put : Segment → Segment → Segment) :
    (m.exchange a b put).rest = m.rest := by
  simp [exchange]

/-- The last stores to two places are the ones that count. -/
theorem update_pair {α β : Type*} [DecidableEq α] (f : α → β) (x y : α) (p q r s : β) :
    update (update (update (update f x p) y q) x r) y s = update (update f x r) y s := by
  funext z
  by_cases hy : z = y
  · subst hy
    simp
  · by_cases hx : z = x
    · subst hx
      simp [hy]
    · simp [hx, hy]

/-- Two members swapped one after the other. -/
theorem exchange_exchange (put put' : Segment → Segment → Segment) :
    (m.exchange a b put).exchange a b put' =
      m.exchange a b fun s o => put' (put s o) (put o s) := by
  refine ext_seg ?_ (by simp)
  by_cases hab : a = b
  · subst hab
    simp [exchange]
  · simp only [exchange, seg_set, ne_eq, hab, not_false_eq_true, update_self, update_of_ne,
      update_pair]

/-- `swap` exchanges the segments, whichever they are. -/
theorem swap_eq : m.swap a b = (m.set a (m.seg b)).set b (m.seg a) := by
  rw [swap, exchange_exchange, exchange_exchange, exchange_exchange]
  rfl

theorem seg_reset : (m.reset a).seg = update m.seg a .null := seg_set

/-- `reset()` of a null segment calls nothing. -/
theorem reset_null (h : m.seg a = .null) : m.reset a = m := by
  refine ext_seg ?_ ?_
  · rw [seg_reset, ← h, Function.update_eq_self]
  · have hrest := rest_set (m := m) (a := a) (s := .null)
    simp only [rest, Prod.mk.injEq] at hrest ⊢
    refine ⟨hrest.1, ?_, ?_⟩
    · simp [reset, h, Segment.null]
    · simp [reset, h, Segment.null, Segment.unlinks]

/-- The new segment takes what the other one has. -/
theorem moveConstruct_eq (h : a ≠ b) :
    m.moveConstruct a b = (m.set a (m.seg b)).set b .null := by
  refine ext_seg ?_ (by simp [moveConstruct, swap_eq])
  simp [moveConstruct, swap_eq, Ne.symm h]

/-- The assigned segment takes what the other one has, and what it had is reset. -/
theorem moveAssign_eq (hab : a ≠ b) (ha : a ≠ .temp 1) (hb : b ≠ .temp 1) :
    m.moveAssign a b =
      (((m.set a (m.seg b)).set b .null).set (.temp 1) (m.seg a)).reset (.temp 1) := by
  rw [moveAssign, if_neg hab, moveConstruct_eq (Ne.symm hb), swap_eq]
  congr 1
  refine ext_seg ?_ (by simp)
  simp only [seg_set]
  funext c
  by_cases hc : c = .temp 1
  · subst hc
    simp [hab, ha]
  · by_cases hca : c = a
    · subst hca
      simp [hab, hc, Ne.symm hb]
    · simp [hc, hca, update]

/-- A null segment is assigned to, and nothing is called. -/
theorem moveAssign_of_null (hab : a ≠ b) (ha : a ≠ .temp 1) (hb : b ≠ .temp 1)
    (hnull : m.seg a = .null) :
    m.moveAssign a b = ((m.set a (m.seg b)).set b .null).set (.temp 1) .null := by
  rw [moveAssign_eq hab ha hb, hnull, reset_null (by simp)]

/-- `std::swap` exchanges the segments, and all it destroys is null. -/
theorem stdSwap_eq (ha : ∀ i, a ≠ .temp i) (hb : ∀ i, b ≠ .temp i) :
    m.stdSwap a b =
      (((m.set a (m.seg b)).set b (m.seg a)).set (.temp 0) .null).set (.temp 1) .null := by
  have htemp : Place.temp 0 ≠ .temp 1 := by decide
  have ha0 := Ne.symm (ha 0)
  have hb0 := Ne.symm (hb 0)
  rw [stdSwap, moveConstruct_eq ha0]
  by_cases hab : a = b
  · subst hab
    have hself {m : Storage} : m.moveAssign a a = m := if_pos rfl
    rw [hself, moveAssign_of_null (ha 0) (ha 1) htemp (by simp), reset_null (by simp [htemp])]
    refine ext_seg ?_ (by simp)
    simp only [seg_set]
    funext c
    by_cases hc : c = a
    · subst hc
      simp [ha, ha0]
    · simp only [hc, update, eq_rec_constant, dite_eq_ite, if_false]
      split_ifs <;> rfl
  · rw [moveAssign_of_null hab (ha 1) (hb 1) (by simp),
      moveAssign_of_null (hb 0) (hb 1) htemp (by simp [hb]), reset_null (by simp [htemp])]
    refine ext_seg ?_ (by simp)
    simp only [seg_set]
    funext c
    by_cases hcb : c = b
    · subst hcb
      simp [hb, ha0, hb0, htemp]
    · by_cases hca : c = a
      · subst hca
        simp [ha, hb, hab, Ne.symm hab]
      · simp only [hca, hcb, update, eq_rec_constant, dite_eq_ite, if_false]
        split_ifs <;> rfl

theorem exchangeMember_exchangeMember (put put' : Queue → Queue → Queue) :
    (m.exchangeMember v u put).exchangeMember v u put' =
      m.exchangeMember v u fun q o => put' (put q o) (put o q) := by
  by_cases hvu : v = u
  · subst hvu
    simp [exchangeMember]
  · simp only [exchangeMember, ne_eq, hvu, not_false_eq_true, update_self, update_of_ne,
      update_pair]

theorem swapMembers_eq :
    m.swapMembers v u = m.exchangeMember v u fun q o => { o with seg := q.seg } := by
  simp only [swapMembers, exchangeMember_exchangeMember]

/-- `swapWith` exchanges the handles, and unmaps and unlinks nothing. -/
theorem swapWith_eq : m.swapWith v u =
    { m with
      queue := update (update m.queue v (m.queue u)) u (m.queue v)
      temp := update (update m.temp 0 .null) 1 .null } := by
  rw [swapWith, stdSwap_eq (by simp) (by simp), swapMembers_eq]
  by_cases hvu : v = u
  · subst hvu
    simp [exchangeMember, set, seg]
  · simp [exchangeMember, set, seg, hvu, Ne.symm hvu, update_pair]

/-- The handle has the new segment, and what it had is reset. -/
theorem assignSegment_eq : m.assignSegment v s =
    { queue := update m.queue v { m.queue v with seg := s, ctrl := s.addr }
      temp := update (update m.temp 2 .null) 1 .null
      munmapped := m.munmapped ++ (m.queue v).seg.addr.toList
      unlinked := m.unlinked ++ (m.queue v).seg.unlinks } := by
  have htemp : Place.temp 2 ≠ .temp 1 := by decide
  have hassign : ((m.set (.temp 2) s).moveAssign (.member v) (.temp 2)).reset (.temp 2) =
      { queue := update m.queue v { m.queue v with seg := s }
        temp := update (update m.temp 2 .null) 1 .null
        munmapped := m.munmapped ++ (m.queue v).seg.addr.toList
        unlinked := m.unlinked ++ (m.queue v).seg.unlinks } := by
    rw [moveAssign_eq (by simp) (by simp) htemp, reset_null]
    · simp [reset, set, seg]
    · simp [seg_reset, htemp]
  rw [assignSegment, hassign]
  simp

end Storage

/-! ## The steps of a process -/

namespace World

variable {T : Type*} {w w' : World T} {p : ℤ} {m m' : Storage} {v u : ℕ}

/-- The storage has the handles of process `p`. -/
def InStorage (w : World T) (p : ℤ) (m : Storage) : Prop :=
  ∀ v q, w.var p v = some q → m.queue v = q

/-- A step from `w` to `w'` does to the handles of `p`, the mappings and the names what the
operations from `m` to `m'` do. -/
structure Executes (w w' : World T) (p : ℤ) (m m' : Storage) : Prop where
  handles : w'.InStorage p m'
  munmapped : ∃ ms, m'.munmapped = m.munmapped ++ ms ∧ w'.unmapped = w.unmapped ++ ms
  unlinked : ∃ ns, m'.unlinked = m.unlinked ++ ns ∧
    w'.names = ns.foldl (fun names name => update names name none) w.names

theorem unmapped_resetSegment {seg : Segment} :
    (w.resetSegment seg).unmapped = w.unmapped ++ seg.addr.toList := by
  unfold resetSegment
  split_ifs <;> rfl

theorem names_resetSegment {seg : Segment} : (w.resetSegment seg).names =
    seg.unlinks.foldl (fun names name => update names name none) w.names := by
  unfold resetSegment Segment.unlinks
  split_ifs <;> rfl

/-- Two handles are exchanged, the first one being `x` before. -/
theorem inStorage_swap {x : Option Queue} (hm : ∀ c q, c ≠ v → w.var p c = some q → m.queue c = q)
    (hx : ∀ q, x = some q → m.queue v = q) :
    ((w.setVar p v (w.var p u)).setVar p u x).InStorage p (m.swapWith v u) := by
  intro c q hc
  rw [Storage.swapWith_eq]
  simp only [var, vars_setVar] at hc
  by_cases hcu : c = u
  · subst hcu
    simp only [update_self] at hc ⊢
    exact hx q hc
  · by_cases hcv : c = v
    · subst hcv
      simp only [update_of_ne hcu, update_self] at hc ⊢
      exact hm u q (Ne.symm hcu) hc
    · simp only [update_of_ne hcu, update_of_ne hcv] at hc ⊢
      exact hm c q hcv hc

theorem executes_swapWith (hm : w.InStorage p m) (h : w.startCall (.swapWith p v u) = some w') :
    Executes w w' p m (m.swapWith v u) := by
  simp only [startCall] at h
  split at h
  next q q' hv hu =>
    cases h
    refine ⟨?_, ⟨[], by simp [Storage.swapWith_eq], by simp [setVar, setProc]⟩,
      ⟨[], by simp [Storage.swapWith_eq], rfl⟩⟩
    rw [← hu]
    refine inStorage_swap (fun c q _ => hm c q) ?_
    rintro q'' ⟨⟩
    exact hm v q hv
  next => cases h

/-- `ShmSpscQueue(ShmSpscQueue &&o)` -/
theorem executes_moveConstruct (hm : w.InStorage p m)
    (h : w.startCall (.moveConstruct p v u) = some w') :
    Executes w w' p m (m.construct v u) := by
  simp only [startCall] at h
  split at h
  next q hv hu =>
    split_ifs at h
    cases h
    refine ⟨?_, ⟨[], by simp [Storage.construct, Storage.swapWith_eq], by simp [setVar, setProc]⟩,
      ⟨[], by simp [Storage.construct, Storage.swapWith_eq], rfl⟩⟩
    rw [← hu]
    refine inStorage_swap (fun c q' hcv hc => ?_) ?_
    · simpa [hcv] using hm c q' hc
    · rintro q' ⟨⟩
      simp
  next => cases h

/-- `seg_.reset()`, and the `swapWith` that follows it in `operator=`. -/
theorem executes_reset {next : Next} (hm : w.InStorage p m) (h : w.reset p v next = some w') :
    Executes w w' p m (m.finish v next) := by
  unfold reset at h
  split at h
  next q hq =>
    have hqueue := hm v q hq
    have hothers (c : ℕ) (q' : Queue) (hcv : c ≠ v) (hc : w.var p c = some q') :
        (m.reset (.member v)).queue c = q' := by
      simpa [Storage.reset, Storage.set, hcv] using hm c q' hc
    have hself : (m.reset (.member v)).queue v = { q with seg := .null } := by
      simp [Storage.reset, Storage.set, hqueue]
    have hms : (m.reset (.member v)).munmapped = m.munmapped ++ q.seg.addr.toList := by
      simp [Storage.reset, Storage.seg, hqueue]
    have hns : (m.reset (.member v)).unlinked = m.unlinked ++ q.seg.unlinks := by
      simp [Storage.reset, Storage.seg, hqueue]
    cases next with
    | keep =>
      cases h
      refine ⟨fun c q' hc => ?_, ⟨_, hms, unmapped_resetSegment⟩, ⟨_, hns, names_resetSegment⟩⟩
      by_cases hcv : c = v
      · subst hcv
        rw [var_goto, var_setVar_self] at hc
        cases hc
        exact hself
      · refine hothers c q' hcv ?_
        simpa [var, hcv] using hc
    | drop =>
      cases h
      refine ⟨fun c q' hc => ?_, ⟨_, hms, unmapped_resetSegment⟩, ⟨_, hns, names_resetSegment⟩⟩
      have hcv : c ≠ v := by
        rintro rfl
        rw [var_goto, var_setVar_self] at hc
        cases hc
      refine hothers c q' hcv ?_
      simpa [var, hcv] using hc
    | swap u =>
      cases h
      refine ⟨fun c q' hc => ?_, ⟨_, ?_, unmapped_resetSegment⟩, ⟨_, ?_, names_resetSegment⟩⟩
      · rw [var_goto] at hc
        have hvar : w.var p u = (w.resetSegment q.seg).var p u := by
          simp [var]
        rw [hvar] at hc
        refine inStorage_swap (fun c q' hcv hc => hothers c q' hcv ?_) ?_ c q' hc
        · simpa [var] using hc
        · rintro q' ⟨⟩
          exact hself
      · simpa [Storage.finish, Storage.swapWith_eq] using hms
      · simpa [Storage.finish, Storage.swapWith_eq] using hns
  next => cases h

/-- `q.seg_ = ShmSegment::create(..)` or `open(..)`, and `q.ctrl_ = q.seg_.data()`. -/
theorem executes_mapTmp {q : Queue} {o : ℕ} {size : UInt64} {owner : Bool} {name : String}
    (hm : w.InStorage p m) (hq : w.var p tmp = some q) :
    Executes w (w.mapTmp p q o size owner name true) p m
      (m.assignSegment tmp ⟨some ⟨w.nextMapping, o⟩, size, owner, name⟩) := by
  have hqueue := hm tmp q hq
  rw [Storage.assignSegment_eq, hqueue]
  refine ⟨fun c q' hc => ?_, ⟨q.seg.addr.toList, rfl, unmapped_resetSegment⟩,
    ⟨q.seg.unlinks, rfl, names_resetSegment⟩⟩
  rw [var, vars_mapTmp] at hc
  by_cases hct : c = tmp
  · subst hct
    rw [update_self] at hc
    cases hc
    simp
  · rw [update_of_ne hct] at hc
    simpa [hct] using hm c q' hc

end World

end ShmSpsc
