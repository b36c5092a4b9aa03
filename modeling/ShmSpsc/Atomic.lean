import ShmSpsc.Transition
import Mathlib.Data.List.Basic
import Mathlib.Logic.Function.Basic

/-!
# Objects whose operations take effect at one moment

An `Object` says what an operation on a value may return and leave. `Follows` is the object
used by several threads at once : a call, then at some moment before its return the operation,
then the return. A history of calls and returns that the object can go along with is
`Linearizable`.

`Linearizable.of_exec` is the rule for an implementation : each of its steps has to be one that
the object goes along with. For an object that decides everything by itself (`Object.ofFun`)
`search` tries every choice of the moments, and `Linearizable.search_ne_nil` refutes a history.
-/

namespace Atomic

open Transition

variable {ι σ Op Res : Type*}

/-- The value at the start, and what an operation may return and leave. -/
structure Object (σ Op Res : Type*) where
  start : σ
  does : σ → Op → Res → σ → Prop

/-- A call or a return of a thread. -/
inductive Event (ι Op Res : Type*) where
  | call (t : ι) (op : Op)
  | ret (t : ι) (res : Res)
  deriving DecidableEq, Repr

/-- A thread between two calls, before the moment of its operation, or after it. -/
inductive Status (Op Res : Type*) where
  | idle
  | called (op : Op)
  | done (res : Res)

/-- The value, and where each thread is. -/
structure State (ι σ Op Res : Type*) where
  value : σ
  status : ι → Status Op Res

/-- All threads between two calls. -/
def Object.initial (obj : Object σ Op Res) : State ι σ Op Res := ⟨obj.start, fun _ => .idle⟩

variable [DecidableEq ι]

/-- The thread `t` goes to `st`, with the value `v`. -/
def State.move (s : State ι σ Op Res) (v : σ) (t : ι) (st : Status Op Res) :
    State ι σ Op Res :=
  ⟨v, Function.update s.status t st⟩

/-- The object goes from `s` along with a history. -/
inductive Follows (obj : Object σ Op Res) (s : State ι σ Op Res) :
    List (Event ι Op Res) → State ι σ Op Res → Prop
  | refl : Follows obj s [] s
  | call {h : List (Event ι Op Res)} {s' : State ι σ Op Res} {t : ι} {op : Op}
      (run : Follows obj s h s') (hidle : s'.status t = .idle) :
      Follows obj s (h ++ [.call t op]) (s'.move s'.value t (.called op))
  | commit {h : List (Event ι Op Res)} {s' : State ι σ Op Res} {t : ι} {op : Op} {res : Res}
      {v : σ} (run : Follows obj s h s') (hcalled : s'.status t = .called op)
      (hdoes : obj.does s'.value op res v) : Follows obj s h (s'.move v t (.done res))
  | ret {h : List (Event ι Op Res)} {s' : State ι σ Op Res} {t : ι} {res : Res}
      (run : Follows obj s h s') (hdone : s'.status t = .done res) :
      Follows obj s (h ++ [.ret t res]) (s'.move s'.value t .idle)

/-- The object can go along with the history. -/
def Linearizable (obj : Object σ Op Res) (h : List (Event ι Op Res)) : Prop :=
  ∃ s, Follows obj obj.initial h s

section Follow

variable {obj : Object σ Op Res} {s s' s'' : State ι σ Op Res} {h h' : List (Event ι Op Res)}
  {t : ι} {op : Op} {res : Res} {v : σ}

theorem Follows.trans (first : Follows obj s h s') (rest : Follows obj s' h' s'') :
    Follows obj s (h ++ h') s'' := by
  induction rest with
  | refl => simpa using first
  | call _ hidle ih =>
    rw [← List.append_assoc]
    exact ih.call hidle
  | commit _ hcalled hdoes ih => exact ih.commit hcalled hdoes
  | ret _ hdone ih =>
    rw [← List.append_assoc]
    exact ih.ret hdone

/-- A call. -/
theorem Follows.called (hidle : s.status t = .idle) :
    Follows obj s [.call t op] (s.move s.value t (.called op)) :=
  Follows.call .refl hidle

/-- The operation, at the moment of the return. -/
theorem Follows.returned (hcalled : s.status t = .called op)
    (hdoes : obj.does s.value op res v) :
    Follows obj s [.ret t res] (s.move v t .idle) := by
  have hdone : (s.move v t (.done res)).status t = .done res := by simp [State.move]
  have hret := (Follows.refl.commit hcalled hdoes).ret hdone
  simpa [State.move] using hret

end Follow

/-! ## Implementations -/

section Implementation

variable {τ α : Type*} {step : τ → α → Option τ} {ok : τ → α → Prop}

/-- The calls and returns of the steps in a row. -/
def history (step : τ → α → Option τ) (events : α → τ → List (Event ι Op Res)) :
    τ → List α → List (Event ι Op Res)
  | _, [] => []
  | s, a :: as =>
    match step s a with
    | some s' => events a s' ++ history step events s' as
    | none => []

/-- If the object goes along with every step, it goes along with the history. -/
theorem Linearizable.of_exec [∀ s a, Decidable (ok s a)] {obj : Object σ Op Res}
    {events : α → τ → List (Event ι Op Res)} {R : τ → State ι σ Op Res → Prop} {s₀ s' : τ}
    (start : R s₀ obj.initial)
    (keep : ∀ s S a s', R s S → step s a = some s' →
      ∃ S', Follows obj S (events a s') S' ∧ R s' S')
    {as : List α} (hexec : exec step ok s₀ as = some s') :
    Linearizable obj (history step events s₀ as) := by
  suffices follow : ∀ (as : List α) (s : τ) (S : State ι σ Op Res), R s S →
      exec step ok s as = some s' → ∃ S', Follows obj S (history step events s as) S' by
    exact follow as s₀ _ start hexec
  intro as
  induction as with
  | nil =>
    intro s S _ _
    exact ⟨S, .refl⟩
  | cons a as ih =>
    intro s S hR hexec
    rw [exec] at hexec
    split_ifs at hexec with met
    obtain ⟨s₁, next, rest⟩ := Option.bind_eq_some_iff.mp hexec
    obtain ⟨S₁, hfollows, hR₁⟩ := keep s S a s₁ hR next
    obtain ⟨S', hrest⟩ := ih s₁ S₁ hR₁ rest
    refine ⟨S', ?_⟩
    rw [history, next]
    exact hfollows.trans hrest

end Implementation

/-! ## Every choice of the moments -/

/-- The object that does `f`. -/
def Object.ofFun (start : σ) (f : σ → Op → Res × σ) : Object σ Op Res :=
  ⟨start, fun v op res v' => f v op = (res, v')⟩

section Search

variable (f : σ → Op → Res × σ) (ts : List ι)

/-- The operation of `t`, if it is before its moment. -/
def committed (s : State ι σ Op Res) (t : ι) : Option (State ι σ Op Res) :=
  match s.status t with
  | .called op => some (s.move (f s.value op).2 t (.done (f s.value op).1))
  | _ => none

/-- What at most `n` operations can lead to. -/
def commits : ℕ → State ι σ Op Res → List (State ι σ Op Res)
  | 0, s => [s]
  | n + 1, s => s :: (ts.filterMap (committed f s)).flatMap (commits n)

/-- A call or a return. -/
def observe [DecidableEq Res] (e : Event ι Op Res) (s : State ι σ Op Res) :
    Option (State ι σ Op Res) :=
  match e with
  | .call t op =>
    match s.status t with
    | .idle => some (s.move s.value t (.called op))
    | _ => none
  | .ret t res =>
    match s.status t with
    | .done res' => if res' = res then some (s.move s.value t .idle) else none
    | _ => none

/-- What a history can lead to, up to operations after its last event. -/
def search [DecidableEq Res] (X : List (State ι σ Op Res)) (h : List (Event ι Op Res)) :
    List (State ι σ Op Res) :=
  h.foldl (fun X e => (X.flatMap (commits f ts ts.length)).filterMap (observe e)) X

/-- The thread is before the moment of its operation. -/
def State.isCalled (s : State ι σ Op Res) (t : ι) : Bool :=
  match s.status t with
  | .called _ => true
  | _ => false

variable {f ts} {s s' s'' : State ι σ Op Res} {t : ι}

theorem self_mem_commits (n : ℕ) (s : State ι σ Op Res) : s ∈ commits f ts n s := by
  rcases n with _ | n <;> simp [commits]

theorem commits_mono {n m : ℕ} (hle : n ≤ m) (hs : s' ∈ commits f ts n s) :
    s' ∈ commits f ts m s := by
  induction n generalizing m s with
  | zero =>
    obtain rfl := List.mem_singleton.mp hs
    exact self_mem_commits m s'
  | succ n ih =>
    obtain ⟨m, rfl⟩ : ∃ k, m = k + 1 := ⟨m - 1, by omega⟩
    rcases List.mem_cons.mp hs with rfl | hs
    · exact self_mem_commits _ s'
    · obtain ⟨u, hu, hs⟩ := List.mem_flatMap.mp hs
      exact List.mem_cons_of_mem _ (List.mem_flatMap.mpr ⟨u, hu, ih (by omega) hs⟩)

theorem commits_succ {n : ℕ} (ht : t ∈ ts) (hs : s' ∈ commits f ts n s)
    (hcommit : committed f s' t = some s'') : s'' ∈ commits f ts (n + 1) s := by
  induction n generalizing s with
  | zero =>
    obtain rfl := List.mem_singleton.mp hs
    refine List.mem_cons_of_mem _ (List.mem_flatMap.mpr ⟨s'', ?_, self_mem_commits 0 s''⟩)
    exact List.mem_filterMap.mpr ⟨t, ht, hcommit⟩
  | succ n ih =>
    rcases List.mem_cons.mp hs with rfl | hs
    · refine List.mem_cons_of_mem _ (List.mem_flatMap.mpr ⟨s'', ?_, self_mem_commits _ s''⟩)
      exact List.mem_filterMap.mpr ⟨t, ht, hcommit⟩
    · obtain ⟨u, hu, hs⟩ := List.mem_flatMap.mp hs
      exact List.mem_cons_of_mem _ (List.mem_flatMap.mpr ⟨u, hu, ih hs⟩)

theorem isCalled_move {v : σ} {res : Res} (u : ι) :
    (s.move v t (.done res)).isCalled u = (s.isCalled u && u != t) := by
  by_cases hu : u = t
  · subst hu
    simp [State.isCalled, State.move]
  · simp [State.isCalled, State.move, hu]

/-- An operation is done once. -/
theorem countP_move (ht : t ∈ ts) (hcalled : s.isCalled t) (v : σ) (res : Res) :
    ts.countP (s.move v t (.done res)).isCalled < ts.countP s.isCalled := by
  induction ts with
  | nil => cases ht
  | cons u ts ih =>
    have hle : ts.countP (s.move v t (.done res)).isCalled ≤ ts.countP s.isCalled :=
      List.countP_mono_left fun u _ hu => by simp_all [isCalled_move]
    rw [List.countP_cons, List.countP_cons, isCalled_move]
    by_cases hu : u = t
    · subst hu
      simpa [hcalled] using Nat.lt_succ_of_le hle
    · have hlt := ih ((List.mem_cons.mp ht).resolve_left (Ne.symm hu))
      simpa [hu] using hlt

variable [DecidableEq Res] {start : σ} {h : List (Event ι Op Res)}

/-- The search finds every state that the object can be in, up to the operations after the
last event. -/
theorem Follows.mem_search (hts : ∀ t, t ∈ ts) {X : List (State ι σ Op Res)} (hX : s ∈ X)
    (hfollows : Follows (.ofFun start f) s h s') :
    ∃ u ∈ search f ts X h, ∃ n, s' ∈ commits f ts n u ∧
      n + ts.countP s'.isCalled ≤ ts.length := by
  -- an event starts over with no operation after it
  have event : ∀ {h : List (Event ι Op Res)} {s' s'' u : State ι σ Op Res} {n : ℕ}
      (e : Event ι Op Res), u ∈ search f ts X h → s' ∈ commits f ts n u →
      n + ts.countP s'.isCalled ≤ ts.length → observe e s' = some s'' →
      ∃ u ∈ search f ts X (h ++ [e]), ∃ n, s'' ∈ commits f ts n u ∧
        n + ts.countP s''.isCalled ≤ ts.length := by
    intro h s' s'' u n e hu hs hn hobserve
    refine ⟨s'', ?_, 0, self_mem_commits 0 s'', ?_⟩
    · rw [search, List.foldl_append]
      refine List.mem_filterMap.mpr ⟨s', List.mem_flatMap.mpr ⟨u, hu, ?_⟩, hobserve⟩
      exact commits_mono (by omega) hs
    · rw [Nat.zero_add]
      exact List.countP_le_length
  induction hfollows with
  | refl =>
    refine ⟨s, hX, 0, self_mem_commits 0 s, ?_⟩
    rw [Nat.zero_add]
    exact List.countP_le_length
  | call _ hidle ih =>
    obtain ⟨u, hu, n, hs, hn⟩ := ih
    exact event _ hu hs hn (by simp [observe, hidle])
  | @commit h s' t op res v _ hcalled hdoes ih =>
    obtain ⟨u, hu, n, hs, hn⟩ := ih
    have hcommit : committed f s' t = some (s'.move v t (.done res)) := by
      simp only [Object.ofFun] at hdoes
      simp [committed, hcalled, hdoes]
    have hpending : s'.isCalled t := by simp [State.isCalled, hcalled]
    have hlt := countP_move (hts t) hpending v res
    exact ⟨u, hu, n + 1, commits_succ (hts t) hs hcommit, by omega⟩
  | ret _ hdone ih =>
    obtain ⟨u, hu, n, hs, hn⟩ := ih
    exact event _ hu hs hn (by simp [observe, hdone])

/-- A history for which the search finds nothing is not linearizable. -/
theorem Linearizable.search_ne_nil (hts : ∀ t, t ∈ ts)
    (hlin : Linearizable (.ofFun start f) h) :
    search f ts [(Object.ofFun start f).initial] h ≠ [] := by
  obtain ⟨s, hs⟩ := hlin
  obtain ⟨u, hu, -⟩ := hs.mem_search hts (List.mem_singleton_self _)
  exact List.ne_nil_of_mem hu

end Search

end Atomic
