import Mathlib.Algebra.Group.Basic
import Mathlib.Data.List.Basic
import Mathlib.Data.List.Induction
import Mathlib.Data.Nat.Nth
import Mathlib.Order.Bounds.Basic

/-! Machines driven by a sequence of inputs: runs, invariants along a run, the largest
value met so far, and the first state at which a machine stops. -/
namespace Machine
variable {σ ι : Type*} (step : σ → ι → σ)

def run : σ → List ι → σ
  | s, [] => s
  | s, i :: is => run (step s i) is

@[simp] theorem run_nil (s : σ) : run step s [] = s := rfl
@[simp] theorem run_cons (s : σ) (i : ι) (is : List ι) :
    run step s (i :: is) = run step (step s i) is := rfl

theorem run_append (s : σ) (is js : List ι) :
    run step s (is ++ js) = run step (run step s is) js := by
  induction is generalizing s with
  | nil => rfl
  | cons i is ih => exact ih (step s i)

/-- `P` holds of every step of the run. -/
def Throughout (P : σ → ι → Prop) : σ → List ι → Prop
  | _, [] => True
  | s, i :: is => P s i ∧ Throughout P (step s i) is

instance instDecidableThroughout (P : σ → ι → Prop) [∀ s i, Decidable (P s i)] :
    ∀ s is, Decidable (Throughout step P s is)
  | _, [] => .isTrue trivial
  | s, i :: is =>
    have := instDecidableThroughout P (step s i) is
    inferInstanceAs (Decidable (P s i ∧ Throughout step P (step s i) is))

theorem throughout_append (P : σ → ι → Prop) (s : σ) (is js : List ι) :
    Throughout step P s (is ++ js) ↔
      Throughout step P s is ∧ Throughout step P (run step s is) js := by
  induction is generalizing s with
  | nil => simp [Throughout]
  | cons i is ih => simp [Throughout, ih, and_assoc]

theorem throughout_iff (P : σ → ι → Prop) (s : σ) (is : List ι) :
    Throughout step P s is ↔ ∀ js i ks, is = js ++ i :: ks → P (run step s js) i := by
  constructor
  · rintro h js i ks rfl
    exact ((throughout_append step P s js (i :: ks)).1 h).2.1
  · intro h
    induction is generalizing s with
    | nil => trivial
    | cons i is ih =>
      exact ⟨h [] i is rfl, ih (step s i) fun js j ks his => h (i :: js) j ks (congrArg _ his)⟩

theorem Throughout.mono {P Q : σ → ι → Prop} {s : σ} {is : List ι} (h : Throughout step P s is)
    (hPQ : ∀ s i, P s i → Q s i) : Throughout step Q s is := by
  induction is generalizing s with
  | nil => trivial
  | cons i is ih => exact ⟨hPQ s i h.1, ih h.2⟩

theorem run_induction {P : σ → ι → Prop} {I : σ → Prop}
    (hstep : ∀ s i, P s i → I s → I (step s i)) {s : σ} (hs : I s)
    (is : List ι) (hP : Throughout step P s is) : I (run step s is) := by
  induction is generalizing s with
  | nil => exact hs
  | cons i is ih => exact ih (hstep s i hP.1 hs) hP.2

/-- What an invariant of the steps subject to `P` implies holds of every step of a run of them. -/
theorem Throughout.of_invariant {P Q : σ → ι → Prop} {I : σ → Prop}
    (hstep : ∀ s i, P s i → I s → I (step s i)) (h : ∀ s i, P s i → I s → Q s i) {s : σ} (hs : I s)
    {is : List ι} (hP : Throughout step P s is) : Throughout step Q s is := by
  induction is generalizing s with
  | nil => trivial
  | cons i is ih => exact ⟨h s i hP.1 hs, ih (hstep s i hP.1 hs) hP.2⟩

theorem throughout_of_forall {P : σ → ι → Prop} (h : ∀ s i, P s i) (s : σ) (is : List ι) :
    Throughout step P s is := by
  induction is generalizing s with
  | nil => trivial
  | cons i is ih => exact ⟨h s i, ih (step s i)⟩

theorem throughout_congr {P Q : σ → ι → Prop} {I : σ → Prop}
    (hI : ∀ s i, I s → I (step s i)) (h : ∀ s i, I s → (P s i ↔ Q s i)) {s : σ} (hs : I s)
    (is : List ι) : Throughout step P s is ↔ Throughout step Q s is := by
  induction is generalizing s with
  | nil => exact Iff.rfl
  | cons i is ih => exact and_congr (h s i hs) (ih (hI s i hs))

theorem invariant {I : σ → Prop} (hstep : ∀ s i, I s → I (step s i)) {s : σ}
    (hs : I s) (is : List ι) : I (run step s is) :=
  run_induction step (fun s i _ => hstep s i) hs is
    (throughout_of_forall step (P := fun _ _ => True) (fun _ _ => trivial) s is)

theorem run_related {τ : Type*} {f : τ → ι → τ} {R : σ → τ → Prop}
    (hstep : ∀ s t i, R s t → R (step s i) (f t i)) {s : σ} {t : τ} (h : R s t)
    (is : List ι) : R (run step s is) (run f t is) := by
  induction is generalizing s t with
  | nil => exact h
  | cons i is ih => exact ih (hstep s t i h)

def Reachable (s₀ s : σ) : Prop := ∃ is, run step s₀ is = s

variable {step}

theorem Reachable.induction {I : σ → Prop} {s₀ s : σ} (h : Reachable step s₀ s)
    (h₀ : I s₀) (hstep : ∀ s i, I s → I (step s i)) : I s := by
  obtain ⟨is, rfl⟩ := h
  exact invariant step hstep h₀ is

section Greatest
variable {α : Type*} (step)

/-- The values of `f` at the states of a run that meet `P`, the last state excepted. -/
def Earlier (P : σ → Prop) (f : σ → α) (s : σ) (is : List ι) : Set α :=
  {v | ∃ m < is.length, P (run step s (is.take m)) ∧ f (run step s (is.take m)) = v}

variable {step} {P : σ → Prop} [DecidablePred P] {f : σ → α}

theorem earlier_concat (s : σ) (is : List ι) (i : ι) :
    Earlier step P f s (is ++ [i]) =
      if P (run step s is) then insert (f (run step s is)) (Earlier step P f s is)
      else Earlier step P f s is := by
  have hmem (v : α) : v ∈ Earlier step P f s (is ++ [i]) ↔
      (P (run step s is) ∧ v = f (run step s is)) ∨ v ∈ Earlier step P f s is := by
    constructor
    · rintro ⟨m, hm, hP, rfl⟩
      have hle : m ≤ is.length := by simpa [Nat.lt_succ_iff] using hm
      rw [List.take_append_of_le_length hle] at hP ⊢
      cases hle.lt_or_eq with
      | inl hlt => exact Or.inr ⟨m, hlt, hP, rfl⟩
      | inr heq =>
        rw [heq, List.take_length] at hP ⊢
        exact Or.inl ⟨hP, rfl⟩
    · rintro (⟨hP, rfl⟩ | ⟨m, hm, hP, rfl⟩)
      · exact ⟨is.length, by simp, by simpa using hP, by simp⟩
      · refine ⟨m, by simp; omega, ?_⟩
        rw [List.take_append_of_le_length hm.le]
        exact ⟨hP, rfl⟩
  ext v
  rw [hmem]
  split_ifs with hP
  · simp [hP]
  · simp [hP]

/-- A register that is raised to `f` wherever `P` holds, and never changed otherwise,
holds the largest of its first value and those of `f` so far. -/
theorem isGreatest_earlier [LinearOrder α] {b : σ → α}
    (hstep : ∀ s i, b (step s i) = if P s then max (f s) (b s) else b s) (s : σ) (is : List ι) :
    IsGreatest (insert (b s) (Earlier step P f s is)) (b (run step s is)) := by
  induction is using List.reverseRecOn with
  | nil =>
    have hnone : Earlier step P f s [] = ∅ := by simp [Earlier]
    rw [hnone]
    simp
  | append_singleton is i ih =>
    rw [run_append, run_cons, run_nil, hstep, earlier_concat]
    split_ifs with hP
    · rw [Set.insert_comm]
      exact ih.insert _
    · exact ih

end Greatest

variable (step)

def after (f : Nat → ι) (s : σ) : Nat → σ
  | 0 => s
  | n + 1 => step (after f s n) (f n)

theorem after_succ (f : Nat → ι) (s : σ) (n : Nat) :
    after step f s (n + 1) = after step (fun m => f (m + 1)) (step s (f 0)) n := by
  induction n with
  | zero => rfl
  | succ n ih => exact congrArg (fun t => step t (f (n + 1))) ih

theorem after_const (i : ι) (s : σ) (n : Nat) :
    after step (fun _ => i) s n = run step s (List.replicate n i) := by
  induction n generalizing s with
  | zero => rfl
  | succ n ih =>
    rw [after_succ, List.replicate_succ, run_cons]
    exact ih (step s i)

theorem after_eq_run (f : Nat → ι) (s : σ) (n : Nat) :
    after step f s n = run step s ((List.range n).map f) := by
  induction n with
  | zero => rfl
  | succ n ih =>
    rw [List.range_succ, List.map_append, run_append, ← ih]
    rfl

def cycle (is : List ι) (i₀ : ι) (n : Nat) : ι := is.getD (n % is.length) i₀

theorem mem_cycle {is : List ι} (hne : is ≠ []) (i₀ : ι) (n : Nat) : cycle is i₀ n ∈ is := by
  have hlt : n % is.length < is.length := Nat.mod_lt n (List.length_pos_of_ne_nil hne)
  rw [cycle, List.getD_eq_getElem _ _ hlt]
  exact List.getElem_mem hlt

theorem cycle_at {is : List ι} {j : Nat} (hj : j < is.length) (i₀ : ι) (k : Nat) :
    cycle is i₀ (is.length * k + j) = is[j] := by
  rw [cycle, Nat.mul_add_mod, Nat.mod_eq_of_lt hj, List.getD_eq_getElem _ _ hj]

/-- A machine clocked by only some edges of a clock: it makes one step for each of them,
with the inputs of that edge. -/
theorem after_gated {e : Nat → Prop} [DecidablePred e] {f : Nat → ι} {s : Nat → σ}
    (hs : ∀ n, s (n + 1) = if e n then step (s n) (f n) else s n) (n : Nat) :
    s n = after step (fun j => f (Nat.nth e j)) (s 0) (Nat.count e n) := by
  induction n with
  | zero => rw [Nat.count_zero]; rfl
  | succ n ih =>
    rw [hs, Nat.count_succ]
    by_cases he : e n
    · rw [if_pos he, if_pos he, after, Nat.nth_count he, ← ih]
    · rw [if_neg he, if_neg he, Nat.add_zero, ← ih]

theorem gated_nth {e : Nat → Prop} [DecidablePred e] {f : Nat → ι} {s : Nat → σ}
    (hs : ∀ n, s (n + 1) = if e n then step (s n) (f n) else s n) (he : (Set.ofPred e).Infinite) (j : Nat) :
    s (Nat.nth e j) = after step (fun j => f (Nat.nth e j)) (s 0) j := by
  rw [after_gated step hs, Nat.count_nth_of_infinite he]

/-- Fed with `f`, the machine meets `stop` at cycle `n` and not earlier. -/
def StopsAt (stop : σ → Prop) (f : Nat → ι) (s : σ) (n : Nat) : Prop :=
  stop (after step f s n) ∧ ∀ m < n, ¬ stop (after step f s m)

theorem StopsAt.unique {stop : σ → Prop} {f : Nat → ι} {s : σ} {m n : Nat}
    (hm : StopsAt step stop f s m) (hn : StopsAt step stop f s n) : m = n := by
  rcases Nat.lt_trichotomy m n with h | h | h
  · exact absurd hm.1 (hn.2 m h)
  · exact h
  · exact absurd hn.1 (hm.2 n h)

/-- Total correctness: whatever the inputs, the machine comes to a state where
`stop` holds, and `post` holds at the first such state. -/
inductive Until (stop post : σ → Prop) : σ → Prop
  | here {s : σ} (hstop : stop s) (hpost : post s) : Until stop post s
  | next {s : σ} (hrun : ¬ stop s) (h : ∀ i, Until stop post (step s i)) : Until stop post s

variable {step} {stop post : σ → Prop}

theorem Until.mono {post' : σ → Prop} (h : ∀ s, post s → post' s) {s : σ}
    (hs : Until step stop post s) : Until step stop post' s := by
  induction hs with
  | here hstop hpost => exact .here hstop (h _ hpost)
  | next hrun _ ih => exact .next hrun ih

theorem Until.of_run {n : Nat} {s : σ}
    (hrun : ∀ is : List ι, is.length < n → ¬ stop (run step s is))
    (h : ∀ is : List ι, is.length = n → Until step stop post (run step s is)) :
    Until step stop post s := by
  induction n generalizing s with
  | zero => exact h [] rfl
  | succ n ih =>
    refine .next (hrun [] (Nat.succ_pos n)) fun i => ih ?_ ?_
    · exact fun is his => hrun (i :: is) (Nat.succ_lt_succ his)
    · exact fun is his => h (i :: is) (congrArg Nat.succ his)

theorem StopsAt.next {f : Nat → ι} {s : σ} {n : Nat} (hrun : ¬ stop s)
    (h : StopsAt step stop (fun m => f (m + 1)) (step s (f 0)) n) : StopsAt step stop f s (n + 1) := by
  obtain ⟨hstop, hbefore⟩ := h
  rw [← after_succ] at hstop
  refine ⟨hstop, fun m hm => ?_⟩
  cases m with
  | zero => exact hrun
  | succ m =>
    rw [after_succ]
    exact hbefore m (Nat.lt_of_succ_lt_succ hm)

theorem StopsAt.tail {f : Nat → ι} {s : σ} {n : Nat} (h : StopsAt step stop f s (n + 1)) :
    StopsAt step stop (fun m => f (m + 1)) (step s (f 0)) n := by
  obtain ⟨hstop, hbefore⟩ := h
  rw [after_succ] at hstop
  refine ⟨hstop, fun m hm => ?_⟩
  rw [← after_succ]
  exact hbefore (m + 1) (Nat.succ_lt_succ hm)

theorem Until.stopsAt {s : σ} (hs : Until step stop post s) (f : Nat → ι) :
    ∃ n, StopsAt step stop f s n ∧ post (after step f s n) := by
  induction hs generalizing f with
  | here hstop hpost => exact ⟨0, ⟨hstop, fun m hm => absurd hm (Nat.not_lt_zero m)⟩, hpost⟩
  | next hrun _ ih =>
    obtain ⟨n, hn, hpost⟩ := ih (f 0) fun m => f (m + 1)
    rw [← after_succ] at hpost
    exact ⟨n + 1, hn.next hrun, hpost⟩

theorem Until.post_of_stopsAt {s : σ} (hs : Until step stop post s) {f : Nat → ι} {n : Nat}
    (hn : StopsAt step stop f s n) : post (after step f s n) := by
  obtain ⟨m, hm, hpost⟩ := hs.stopsAt f
  rwa [hm.unique step hn] at hpost

/-- A machine that may wait for ever: where it does stop, `post` holds if every way out
of waiting leads there. -/
theorem StopsAt.post_of_waiting {W : σ → Prop} (hrun : ∀ s, W s → ¬ stop s)
    (hwait : ∀ s i, W s → W (step s i) ∨ Until step stop post (step s i)) {s : σ} (hs : W s)
    {f : Nat → ι} {n : Nat} (hn : StopsAt step stop f s n) : post (after step f s n) := by
  induction n generalizing s f with
  | zero => exact absurd hn.1 (hrun s hs)
  | succ n ih =>
    rw [after_succ]
    cases hwait s (f 0) hs with
    | inl hagain => exact ih hagain hn.tail
    | inr huntil => exact huntil.post_of_stopsAt hn.tail

theorem Until.not_of_not {s : σ} (hs : Until step stop (fun t => ¬ post t) s) (f : Nat → ι) :
    ¬ ∃ n, StopsAt step stop f s n ∧ post (after step f s n) := by
  rintro ⟨n, hn, hpost⟩
  exact hs.post_of_stopsAt hn hpost

section Progress
variable (step : σ → ι → σ) (f : Nat → ι) (s : σ)

theorem after_add (m n : Nat) :
    after step f s (m + n) = after step (fun k => f (m + k)) (after step f s m) n := by
  induction n with
  | zero => rfl
  | succ n ih => exact congrArg (fun t => step t (f (m + n))) ih

theorem after_take {is : List ι} (hf : ∀ m (hm : m < is.length), f m = is[m]) {n : Nat} (hn : n ≤ is.length) :
    after step f s n = run step s (is.take n) := by
  have hsame : (List.range n).map f = is.take n := by
    refine List.ext_getElem (by simp [hn]) fun m hm hm' => ?_
    have hlt : m < is.length := by
      rw [List.length_take] at hm'
      omega
    rw [List.getElem_map, List.getElem_range, List.getElem_take, hf m hlt]
  rw [after_eq_run, hsame]

theorem after_cycle (is : List ι) (i₀ : ι) (k : Nat) {j : Nat} (hj : j ≤ is.length) :
    after step (cycle is i₀) s (is.length * k + j) =
      run step (after step (cycle is i₀) s (is.length * k)) (is.take j) := by
  rw [after_add]
  exact after_take step _ _ (fun m hm => cycle_at hm i₀ k) hj

theorem cycle_start {I : σ → Prop} {is : List ι} (hI : ∀ t, I t → I (run step t is)) {s : σ} (hs : I s)
    (i₀ : ι) (k : Nat) : I (after step (cycle is i₀) s (is.length * k)) := by
  induction k with
  | zero => exact hs
  | succ k ih =>
    rw [Nat.mul_succ, after_cycle step s is i₀ k le_rfl, List.take_length]
    exact hI _ ih

theorem cycle_forall {P : σ → ι → Prop} {I : σ → Prop} {is : List ι} (hne : is ≠ [])
    (hI : ∀ t, I t → I (run step t is)) (hP : ∀ t, I t → Throughout step P t is) {s : σ} (hs : I s)
    (i₀ : ι) (n : Nat) : P (after step (cycle is i₀) s n) (cycle is i₀ n) := by
  have hlt : n % is.length < is.length := Nat.mod_lt n (List.length_pos_of_ne_nil hne)
  rw [← Nat.div_add_mod n is.length, after_cycle step s is i₀ _ hlt.le, cycle_at hlt]
  refine (throughout_iff step P _ is).1 (hP _ (cycle_start step hI hs i₀ _)) _ _ (is.drop (n % is.length + 1)) ?_
  rw [List.getElem_cons_drop, List.take_append_drop]

theorem after_invariant {I : σ → Prop} (hstep : ∀ t n, I t → I (step t (f n))) {s : σ} (hs : I s)
    (n : Nat) : I (after step f s n) := by
  induction n with
  | zero => exact hs
  | succ n ih => exact hstep _ n ih

def LeadsTo (P Q : σ → Prop) : Prop :=
  ∀ n, P (after step f s n) → ∃ m, n ≤ m ∧ Q (after step f s m)

variable {step f s} {P Q R : σ → Prop}

theorem LeadsTo.trans (h : LeadsTo step f s P Q) (h' : LeadsTo step f s Q R) : LeadsTo step f s P R := by
  intro n hn
  obtain ⟨m, hm, hq⟩ := h n hn
  obtain ⟨k, hk, hr⟩ := h' m hq
  exact ⟨k, hm.trans hk, hr⟩

theorem LeadsTo.of_imp (h : ∀ t, P t → Q t) : LeadsTo step f s P Q :=
  fun n hn => ⟨n, le_rfl, h _ hn⟩

theorem LeadsTo.or (h : LeadsTo step f s P R) (h' : LeadsTo step f s Q R) :
    LeadsTo step f s (fun t => P t ∨ Q t) R :=
  fun n hn => hn.elim (h n) (h' n)

theorem LeadsTo.of_step (h : ∀ t i, P t → Q (step t i)) : LeadsTo step f s P Q :=
  fun n hn => ⟨n + 1, Nat.le_succ n, h _ _ hn⟩

/-- The rule for fair streams: a step that does not lower the rank leaves whatever would
lower it to come, and it does come. -/
theorem LeadsTo.of_fair {α : Type*} [Preorder α] [WellFoundedLT α] (rank : σ → α)
    (goesOn : σ → ι → Prop)
    (hfair : ∀ n, P (after step f s n) → ∃ m, n ≤ m ∧ goesOn (after step f s n) (f m))
    (hstep : ∀ n, let t := after step f s n; P t → ¬ Q t → let t' := step t (f n)
      Q t' ∨ (P t' ∧ (rank t' < rank t ∨
        (rank t' ≤ rank t ∧ ¬ goesOn t (f n) ∧ ∀ i, goesOn t i → goesOn t' i)))) :
    LeadsTo step f s P Q := by
  intro n hn
  generalize hr : rank (after step f s n) = r
  induction r using WellFoundedLT.induction generalizing n with
  | ind r ih =>
    have hnext (k : Nat) (hk : n ≤ k) (hp : P (after step f s k)) (hle : rank (after step f s k) ≤ r) :
        (∃ l, n ≤ l ∧ Q (after step f s l)) ∨
          (P (after step f s (k + 1)) ∧ rank (after step f s (k + 1)) ≤ r ∧ ¬ goesOn (after step f s k) (f k) ∧
            ∀ i, goesOn (after step f s k) i → goesOn (after step f s (k + 1)) i) := by
      by_cases hq : Q (after step f s k)
      · exact Or.inl ⟨k, hk, hq⟩
      obtain hq' | ⟨hp', hlt | ⟨hle', hno, hkeep⟩⟩ := hstep k hp hq
      · exact Or.inl ⟨k + 1, by omega, hq'⟩
      · obtain ⟨l, hl, hq'⟩ := ih _ (hlt.trans_le hle) (k + 1) hp' rfl
        exact Or.inl ⟨l, by omega, hq'⟩
      · exact Or.inr ⟨hp', hle'.trans hle, hno, hkeep⟩
    have hwalk (d : Nat) : (∃ l, n ≤ l ∧ Q (after step f s l)) ∨
        (P (after step f s (n + d)) ∧ rank (after step f s (n + d)) ≤ r ∧
          ∀ i, goesOn (after step f s n) i → goesOn (after step f s (n + d)) i) := by
      induction d with
      | zero => exact Or.inr ⟨hn, hr.le, fun _ => id⟩
      | succ d ihd =>
        obtain hdone | ⟨hp, hle, hkept⟩ := ihd
        · exact Or.inl hdone
        · refine (hnext (n + d) (by omega) hp hle).imp_right fun hwaits => ?_
          exact ⟨hwaits.1, hwaits.2.1, fun i hi => hwaits.2.2.2 i (hkept i hi)⟩
    obtain ⟨m, hm, hgo⟩ := hfair n hn
    obtain ⟨d, rfl⟩ := Nat.exists_eq_add_of_le hm
    obtain hdone | ⟨hp, hle, hkept⟩ := hwalk d
    · exact hdone
    · obtain hdone | hwaits := hnext (n + d) hm hp hle
      · exact hdone
      · exact absurd (hkept _ hgo) hwaits.2.2.1

/-- The rule for machines that wait: no wait lasts for ever, and each other step lowers
the rank. -/
theorem LeadsTo.of_rank {α : Type*} [Preorder α] [WellFoundedLT α] (rank : σ → α)
    (goesOn : σ → ι → Prop) (hfair : ∀ n, ∃ m, n ≤ m ∧ goesOn (after step f s n) (f m))
    (hstep : ∀ t n, P t → ¬ Q t → let t' := step t (f n)
      Q t' ∨ (P t' ∧ (rank t' < rank t ∨ (t' = t ∧ ¬ goesOn t (f n))))) :
    LeadsTo step f s P Q := by
  refine LeadsTo.of_fair rank goesOn (fun n _ => hfair n) ?_
  intro n t hp hq
  refine (hstep t n hp hq).imp_right (And.imp_right (Or.imp_right ?_))
  rintro ⟨hstay, hno⟩
  rw [hstay]
  exact ⟨le_rfl, hno, fun _ => id⟩

/-- Where `P` leads to `Q` or to a smaller rank, it leads to `Q`. -/
theorem LeadsTo.of_descent {α : Type*} [Preorder α] [WellFoundedLT α] (rank : σ → α)
    (h : ∀ r, LeadsTo step f s (fun t => P t ∧ rank t = r) fun t => Q t ∨ (P t ∧ rank t < r)) :
    LeadsTo step f s P Q := by
  intro n hn
  generalize hr : rank (after step f s n) = r
  induction r using WellFoundedLT.induction generalizing n with
  | ind r ih =>
    obtain ⟨m, hm, hq | ⟨hp, hlt⟩⟩ := h r n ⟨hn, hr⟩
    · exact ⟨m, hm, hq⟩
    · obtain ⟨l, hl, hq⟩ := ih _ hlt m hp rfl
      exact ⟨l, hm.trans hl, hq⟩

theorem exists_ending {n m : Nat} (hle : n ≤ m) (hn : P (after step f s n)) (hm : ¬ P (after step f s m)) :
    ∃ k, n ≤ k ∧ P (after step f s k) ∧ ¬ P (after step f s (k + 1)) := by
  induction m, hle using Nat.le_induction with
  | base => exact absurd hn hm
  | succ m hle ih =>
    by_cases hp : P (after step f s m)
    · exact ⟨m, hle, hp, hm⟩
    · exact ih hp

theorem LeadsTo.of_until {stop : σ → Prop} (post : σ → Prop) (h : ∀ t, P t → Until step stop post t) :
    LeadsTo step f s P stop := by
  intro n hn
  obtain ⟨k, hk, -⟩ := (h _ hn).stopsAt fun m => f (n + m)
  refine ⟨n + k, Nat.le_add_right n k, ?_⟩
  rw [after_add]
  exact hk.1

end Progress

section Simulation
variable {τ μ α : Type*} [AddMonoid α]

def total (step : σ → ι → σ) (c : σ → ι → α) : σ → List ι → α
  | _, [] => 0
  | s, i :: is => c s i + total step c (step s i) is

variable (step : σ → ι → σ) (play : τ → μ → τ) (act : σ → ι → Option μ)

theorem total_append (c : σ → ι → α) (s : σ) (is js : List ι) :
    total step c s (is ++ js) = total step c s is + total step c (run step s is) js := by
  induction is generalizing s with
  | nil => exact (zero_add _).symm
  | cons i is ih => simp only [List.cons_append, total, run_cons, ih, add_assoc]

/-- The rule for amortised costs: what one machine spends is paid for by another one with
the same inputs, out of what they have put aside. -/
theorem total_le_total {step : σ → ι → σ} {move : τ → ι → τ} {c : σ → ι → Nat} {d : τ → ι → Nat}
    {saved : σ → τ → Nat}
    (h : ∀ s t i, c s i + saved (step s i) (move t i) ≤ d t i + saved s t) (s : σ) (t : τ) (is : List ι) :
    total step c s is + saved (run step s is) (run move t is) ≤ total move d t is + saved s t := by
  induction is generalizing s t with
  | nil => exact le_rfl
  | cons i is ih =>
    have hfirst := h s t i
    have hrest := ih (step s i) (move t i)
    simp only [total, run_cons]
    omega

/-- The moves a run makes, where some steps make none. -/
def trace : σ → List ι → List μ
  | _, [] => []
  | s, i :: is => (act s i).toList ++ trace (step s i) is

variable {step play act} {abs : σ → τ} {P : σ → ι → Prop} {I : σ → Prop}

/-- A step that makes a move makes it in the abstract; another one changes nothing there. -/
def Simulates (step : σ → ι → σ) (play : τ → μ → τ) (act : σ → ι → Option μ) (abs : σ → τ)
    (P : σ → ι → Prop) (I : σ → Prop) : Prop :=
  ∀ s i, P s i → I s → I (step s i) ∧ abs (step s i) = (act s i).elim (abs s) (play (abs s))

theorem run_toList (m : Option μ) (t : τ) : run play t m.toList = m.elim t (play t) := by
  cases m <;> rfl

theorem Simulates.inv (h : Simulates step play act abs P I) {s : σ} (hs : I s) (is : List ι)
    (hP : Throughout step P s is) : I (run step s is) :=
  run_induction step (fun s i hp hi => (h s i hp hi).1) hs is hP

theorem Simulates.run (h : Simulates step play act abs P I) {s : σ} (hs : I s) (is : List ι)
    (hP : Throughout step P s is) :
    abs (run step s is) = Machine.run play (abs s) (trace step act s is) := by
  induction is generalizing s with
  | nil => rfl
  | cons i is ih =>
    obtain ⟨hinv, hstep⟩ := h s i hP.1 hs
    rw [trace, run_append, run_toList, ← hstep]
    exact ih hinv hP.2

theorem trace_append (s : σ) (is js : List ι) :
    trace step act s (is ++ js) = trace step act s is ++ trace step act (run step s is) js := by
  induction is generalizing s with
  | nil => rfl
  | cons i is ih => simp only [List.cons_append, trace, run_cons, ih, List.append_assoc]

/-- Where only the steps subject to `P` are simulated, a run is followed to its end exactly
if it is made of them. -/
theorem Simulates.run_iff (h : Simulates step play act abs P I)
    (hP : ∀ s i, I s → abs (step s i) = (act s i).elim (abs s) (play (abs s)) → P s i) {s : σ} (hs : I s)
    (is : List ι) :
    (∀ js, js <+: is → abs (Machine.run step s js) = Machine.run play (abs s) (trace step act s js)) ↔
      Throughout step P s is := by
  constructor
  · intro hall
    induction is using List.reverseRecOn with
    | nil => trivial
    | append_singleton is i ih =>
      have hbefore := ih fun js hjs => hall js (hjs.trans (List.prefix_append is [i]))
      refine (throughout_append step P s is [i]).2 ⟨hbefore, hP _ _ (h.inv hs is hbefore) ?_, trivial⟩
      have hlast := hall (is ++ [i]) List.prefix_rfl
      rw [run_append, trace_append, run_append, ← hall is (List.prefix_append is [i])] at hlast
      rw [← run_toList, ← List.append_nil (act _ i).toList]
      exact hlast
  · rintro hall js ⟨ks, rfl⟩
    exact h.run hs js ((throughout_append step P s js ks).1 hall).1

theorem Simulates.throughout (h : Simulates step play act abs P I) {Q : τ → μ → Prop}
    (hQ : ∀ s i m, P s i → I s → act s i = some m → Q (abs s) m) {s : σ} (hs : I s) (is : List ι)
    (hP : Throughout step P s is) : Throughout play Q (abs s) (trace step act s is) := by
  induction is generalizing s with
  | nil => trivial
  | cons i is ih =>
    obtain ⟨hinv, hstep⟩ := h s i hP.1 hs
    rw [trace, throughout_append, run_toList, ← hstep]
    refine ⟨?_, ih hinv hP.2⟩
    cases hact : act s i with
    | none => trivial
    | some m => exact ⟨hQ s i m hP.1 hs hact, trivial⟩

theorem Simulates.throughout_steps (h : Simulates step play act abs P I) {Q : τ → μ → Prop} {R : σ → ι → Prop}
    (hR : ∀ s i, I s → (∀ m, act s i = some m → Q (abs s) m) → R s i) {s : σ} (hs : I s) {is : List ι}
    (hP : Throughout step P s is) (hQ : Throughout play Q (abs s) (trace step act s is)) :
    Throughout step R s is := by
  induction is generalizing s with
  | nil => trivial
  | cons i is ih =>
    obtain ⟨hinv, hstep⟩ := h s i hP.1 hs
    rw [trace, throughout_append, run_toList, ← hstep] at hQ
    refine ⟨hR s i hs fun m hm => ?_, ih hinv hP.2 hQ.2⟩
    have hfirst := hQ.1
    rw [hm] at hfirst
    exact hfirst.1

theorem Simulates.total (h : Simulates step play act abs P I) {c : τ → μ → α} {d : σ → ι → α}
    (hd : ∀ s i, P s i → I s → d s i = (act s i).elim 0 (c (abs s))) {s : σ} (hs : I s)
    (is : List ι) (hP : Throughout step P s is) :
    Machine.total play c (abs s) (trace step act s is) = Machine.total step d s is := by
  induction is generalizing s with
  | nil => rfl
  | cons i is ih =>
    obtain ⟨hinv, hstep⟩ := h s i hP.1 hs
    rw [trace, total_append, run_toList, ← hstep, ih hinv hP.2, Machine.total, hd s i hP.1 hs]
    cases act s i with
    | none => rfl
    | some m => exact congrArg (· + _) (add_zero (c (abs s) m))

section Stream
variable (step act) (f : Nat → ι) (s : σ)

def Acts (n : Nat) : Prop := (act (after step f s n) (f n)).isSome = true

instance : DecidablePred (Acts step act f s) := fun _ => inferInstanceAs (Decidable (_ = true))

noncomputable def moves [Nonempty μ] (j : Nat) : μ :=
  (act (after step f s (Nat.nth (Acts step act f s) j)) (f (Nat.nth (Acts step act f s) j))).getD
    (Classical.arbitrary μ)

variable {step act f s} [Nonempty μ]

theorem Simulates.gated (h : Simulates step play act abs P I) (hs : I s)
    (hP : ∀ n, P (after step f s n) (f n)) (n : Nat) :
    abs (after step f s (n + 1)) = if Acts step act f s n
      then play (abs (after step f s n)) ((act (after step f s n) (f n)).getD (Classical.arbitrary μ))
      else abs (after step f s n) := by
  have hinv (k : Nat) : I (after step f s k) := by
    induction k with
    | zero => exact hs
    | succ k ih => exact (h _ _ (hP k) ih).1
  refine (h _ _ (hP n) (hinv n)).2.trans ?_
  by_cases hacts : Acts step act f s n
  · obtain ⟨m, hm⟩ := Option.isSome_iff_exists.1 hacts
    rw [if_pos hacts, hm]
    rfl
  · rw [if_neg hacts, Option.not_isSome_iff_eq_none.1 hacts]
    rfl

theorem Simulates.after_count (h : Simulates step play act abs P I) (hs : I s)
    (hP : ∀ n, P (after step f s n) (f n)) (n : Nat) :
    abs (after step f s n) =
      after play (moves step act f s) (abs s) (Nat.count (Acts step act f s) n) :=
  after_gated play (s := fun n => abs (after step f s n)) (h.gated hs hP) n

theorem Simulates.after_nth (h : Simulates step play act abs P I) (hs : I s)
    (hP : ∀ n, P (after step f s n) (f n)) (hinf : (Set.ofPred (Acts step act f s)).Infinite) (j : Nat) :
    abs (after step f s (Nat.nth (Acts step act f s) j)) = after play (moves step act f s) (abs s) j :=
  gated_nth play (s := fun n => abs (after step f s n)) (h.gated hs hP) hinf j

theorem moves_spec (hinf : (Set.ofPred (Acts step act f s)).Infinite) (j : Nat) :
    act (after step f s (Nat.nth (Acts step act f s) j)) (f (Nat.nth (Acts step act f s) j)) =
      some (moves step act f s j) := by
  obtain ⟨m, hm⟩ := Option.isSome_iff_exists.1 (Nat.nth_mem_of_infinite hinf j)
  rw [moves, hm, Option.getD_some]

theorem exists_moves (hinf : (Set.ofPred (Acts step act f s)).Infinite) {j n : Nat}
    (hn : Nat.nth (Acts step act f s) j ≤ n) {m : μ} (hm : act (after step f s n) (f n) = some m) :
    ∃ k, j ≤ k ∧ moves step act f s k = m := by
  have hacts : Acts step act f s n := by rw [Acts, hm]; rfl
  refine ⟨Nat.count (Acts step act f s) n, ?_, ?_⟩
  · rw [← Nat.count_nth_of_infinite hinf j]
    exact Nat.count_monotone _ hn
  · rw [moves, Nat.nth_count hacts, hm, Option.getD_some]

end Stream

end Simulation

end Machine
