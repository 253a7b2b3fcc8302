import Mathlib.Data.List.Forall2

/-! # Runs of checked steps

Reading, linking and assembling are folds of steps that may fail. A run that succeeds is a chain of
steps that succeed, it can be cut anywhere, and whatever every step preserves it preserves.
-/

namespace HackVM.Runs

section Except

variable {ε σ α β : Type} {step : σ → α → Except ε σ}

theorem bind_eq_ok_iff {action : Except ε α} {next : α → Except ε β} {result : β} :
    action >>= next = .ok result ↔ ∃ value, action = .ok value ∧ next value = .ok result := by
  cases action with
  | error fault => simp [bind, Except.bind]
  | ok value => simp [bind, Except.bind]

theorem foldlM_cons_eq_ok_iff {item : α} {rest : List α} {start final : σ} :
    (item :: rest).foldlM step start = .ok final ↔
      ∃ next, step start item = .ok next ∧ rest.foldlM step next = .ok final := by
  rw [List.foldlM_cons, bind_eq_ok_iff]

/-- A run can be cut anywhere. -/
theorem foldlM_append_eq_ok_iff {before after : List α} {start final : σ} :
    (before ++ after).foldlM step start = .ok final ↔
      ∃ middle, before.foldlM step start = .ok middle ∧ after.foldlM step middle = .ok final := by
  rw [List.foldlM_append, bind_eq_ok_iff]

/-- What holds at the start and is kept by every step, with the items so far, holds at the end. -/
theorem foldlM_invariant {items : List α} {start final : σ}
    (success : items.foldlM step start = .ok final) (holds : List α → σ → Prop) (initial : holds [] start)
    (kept : ∀ before item current next, item ∈ items → holds before current →
      step current item = .ok next → holds (before ++ [item]) next) :
    holds items final := by
  have run : ∀ before after current, items = before ++ after → holds before current →
      after.foldlM step current = .ok final → holds items final := by
    intro before after
    induction after generalizing before with
    | nil =>
      intro current whole holding success
      cases success
      rwa [whole, List.append_nil]
    | cons item rest ih =>
      intro current whole holding success
      obtain ⟨next, ran, later⟩ := foldlM_cons_eq_ok_iff.mp success
      have member : item ∈ items := by rw [whole]; simp
      exact ih (before ++ [item]) next (by simp [whole]) (kept before item current next member holding ran) later
  exact run [] items start rfl initial success

/-- A result that passes a test exists. -/
theorem exists_of_any {action : Except ε α} {test : α → Bool} (passes : action.toOption.any test = true) :
    ∃ result, action = .ok result ∧ test result = true := by
  cases action with
  | error fault => contradiction
  | ok result => exact ⟨result, rfl, passes⟩

/-- Each result of reading several things comes from one of them. -/
theorem exists_of_mem_mapM {read : α → Except ε β} {inputs : List α} {results : List β}
    (success : inputs.mapM read = .ok results) {result : β} (member : result ∈ results) :
    ∃ input ∈ inputs, read input = .ok result := by
  induction inputs generalizing results with
  | nil =>
    cases success
    exact absurd member List.not_mem_nil
  | cons input rest ih =>
    rw [List.mapM_cons, bind_eq_ok_iff] at success
    obtain ⟨head, first, success⟩ := success
    obtain ⟨tail, later, success⟩ := bind_eq_ok_iff.mp success
    cases success
    rcases List.mem_cons.mp member with rfl | member
    · exact ⟨input, List.mem_cons_self .., first⟩
    · obtain ⟨other, present, read⟩ := ih later member
      exact ⟨other, List.mem_cons_of_mem _ present, read⟩

theorem bind_eq_error_iff {action : Except ε α} {next : α → Except ε β} {fault : ε} :
    action >>= next = .error fault ↔
      action = .error fault ∨ ∃ value, action = .ok value ∧ next value = .error fault := by
  cases action with
  | error other => simp [bind, Except.bind]
  | ok value => simp [bind, Except.bind]

/-- A run fails at the first step that does. -/
theorem foldlM_eq_error_iff {items : List α} {start : σ} {fault : ε} :
    items.foldlM step start = .error fault ↔
      ∃ before item after middle, items = before ++ item :: after ∧ before.foldlM step start = .ok middle ∧
        step middle item = .error fault := by
  induction items generalizing start with
  | nil => simp [pure, Except.pure]
  | cons item rest ih =>
    rw [List.foldlM_cons, bind_eq_error_iff]
    constructor
    · rintro (failed | ⟨next, stepped, failed⟩)
      · exact ⟨[], item, rest, start, rfl, rfl, failed⟩
      · obtain ⟨before, failing, after, middle, rfl, earlier, failed⟩ := ih.mp failed
        exact ⟨item :: before, failing, after, middle, rfl, foldlM_cons_eq_ok_iff.mpr ⟨next, stepped, earlier⟩, failed⟩
    · rintro ⟨before, failing, after, middle, split, earlier, failed⟩
      cases before with
      | nil =>
        cases split
        cases earlier
        exact .inl failed
      | cons first before =>
        cases split
        obtain ⟨next, stepped, earlier⟩ := foldlM_cons_eq_ok_iff.mp earlier
        exact .inr ⟨next, stepped, ih.mpr ⟨before, failing, after, middle, rfl, earlier, failed⟩⟩

/-- Reading several things succeeds when each of them can be read. -/
theorem mapM_eq_ok_iff {read : α → Except ε β} {inputs : List α} {results : List β} :
    inputs.mapM read = .ok results ↔ List.Forall₂ (fun input result => read input = .ok result) inputs results := by
  induction inputs generalizing results with
  | nil => simp [pure, Except.pure, eq_comm]
  | cons input rest ih =>
    rw [List.mapM_cons, bind_eq_ok_iff, List.forall₂_cons_left_iff]
    constructor
    · rintro ⟨head, first, success⟩
      obtain ⟨tail, later, success⟩ := bind_eq_ok_iff.mp success
      cases success
      exact ⟨head, tail, first, ih.mp later, rfl⟩
    · rintro ⟨head, tail, first, later, rfl⟩
      exact ⟨head, first, bind_eq_ok_iff.mpr ⟨tail, ih.mpr later, rfl⟩⟩

theorem exists_mapM_iff {read : α → Except ε β} {inputs : List α} :
    (∃ results, inputs.mapM read = .ok results) ↔ ∀ input ∈ inputs, ∃ result, read input = .ok result := by
  simp only [mapM_eq_ok_iff]
  induction inputs with
  | nil => simp
  | cons input rest ih =>
    simp only [List.forall₂_cons_left_iff, List.forall_mem_cons, ← ih]
    constructor
    · rintro ⟨_, head, tail, first, later, -⟩
      exact ⟨⟨head, first⟩, tail, later⟩
    · rintro ⟨⟨head, first⟩, tail, later⟩
      exact ⟨head :: tail, head, tail, first, later, rfl⟩

/-- Reading several things fails at the first that cannot be read. -/
theorem mapM_eq_error_iff {read : α → Except ε β} {inputs : List α} {fault : ε} :
    inputs.mapM read = .error fault ↔
      ∃ before input after results, inputs = before ++ input :: after ∧
        before.mapM read = .ok results ∧ read input = .error fault := by
  induction inputs with
  | nil => simp [pure, Except.pure]
  | cons input rest ih =>
    rw [List.mapM_cons, bind_eq_error_iff]
    constructor
    · rintro (failed | ⟨head, first, failed⟩)
      · exact ⟨[], input, rest, [], rfl, rfl, failed⟩
      · rcases bind_eq_error_iff.mp failed with failed | ⟨tail, -, failed⟩
        · obtain ⟨before, other, after, results, rfl, earlier, failed⟩ := ih.mp failed
          refine ⟨input :: before, other, after, head :: results, rfl, ?_, failed⟩
          rw [List.mapM_cons, first, earlier]
          rfl
        · contradiction
    · rintro ⟨before, other, after, results, split, earlier, failed⟩
      cases before with
      | nil =>
        obtain ⟨rfl, rfl⟩ := List.cons.inj split
        exact .inl failed
      | cons item before =>
        obtain ⟨rfl, rfl⟩ := List.cons.inj split
        rw [List.mapM_cons] at earlier
        obtain ⟨head, first, earlier⟩ := bind_eq_ok_iff.mp earlier
        obtain ⟨tail, earlier, -⟩ := bind_eq_ok_iff.mp earlier
        have later : (before ++ other :: after).mapM read = .error fault :=
          ih.mpr ⟨before, other, after, tail, rfl, earlier, failed⟩
        exact .inr ⟨head, first, bind_eq_error_iff.mpr (.inl later)⟩

end Except

section State

variable {ε σ α β : Type}

/-- A step followed by another succeeds when both do, one after the other. -/
theorem state_bind_eq_ok_iff {action : EStateM ε σ α} {next : α → EStateM ε σ β} {start final : σ} {result : β} :
    (action >>= next) start = .ok result final ↔
      ∃ value middle, action start = .ok value middle ∧ next value middle = .ok result final := by
  cases ran : action start with
  | error fault stopped => simp [bind, EStateM.bind, ran]
  | ok value middle =>
    simp only [bind, EStateM.bind, ran, EStateM.Result.ok.injEq]
    constructor
    · exact fun later => ⟨value, middle, ⟨rfl, rfl⟩, later⟩
    · rintro ⟨_, _, ⟨rfl, rfl⟩, later⟩
      exact later

/-- A step followed by another fails when the first does, or the second after the first. -/
theorem state_bind_eq_error_iff {action : EStateM ε σ α} {next : α → EStateM ε σ β} {start stopped : σ} {fault : ε} :
    (action >>= next) start = .error fault stopped ↔
      action start = .error fault stopped ∨
        ∃ value middle, action start = .ok value middle ∧ next value middle = .error fault stopped := by
  cases ran : action start with
  | error other left => simp [bind, EStateM.bind, ran]
  | ok value middle =>
    simp only [bind, EStateM.bind, ran, EStateM.Result.ok.injEq, reduceCtorEq, false_or]
    constructor
    · exact fun later => ⟨value, middle, ⟨rfl, rfl⟩, later⟩
    · rintro ⟨_, _, ⟨rfl, rfl⟩, later⟩
      exact later

theorem mapM_cons_eq_ok_iff {action : α → EStateM ε σ β} {item : α} {rest : List α} {start final : σ}
    {results : List β} :
    (item :: rest).mapM action start = .ok results final ↔
      ∃ first middle others, action item start = .ok first middle ∧
        rest.mapM action middle = .ok others final ∧ results = first :: others := by
  rw [List.mapM_cons, state_bind_eq_ok_iff]
  constructor
  · rintro ⟨first, middle, ran, success⟩
    obtain ⟨others, last, later, success⟩ := state_bind_eq_ok_iff.mp success
    cases success
    exact ⟨first, middle, others, ran, later, rfl⟩
  · rintro ⟨first, middle, others, ran, later, rfl⟩
    exact ⟨first, middle, ran, state_bind_eq_ok_iff.mpr ⟨others, final, later, rfl⟩⟩

end State

end HackVM.Runs
