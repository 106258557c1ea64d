import DirectCall.Fault
import Mathlib.Data.List.Forall2

/-!
# Computations that succeed or fail

What the parts of a computation gave, read off its success, and which part failed, read off its failure.
-/

namespace DirectCall

variable {ε ε' α β : Type}

theorem bind_eq_ok {x : Except ε α} {f : α → Except ε β} {b : β} :
    x >>= f = .ok b ↔ ∃ a, x = .ok a ∧ f a = .ok b := by
  cases x with
  | error e => simp [bind, Except.bind]
  | ok a => simp [bind, Except.bind]

theorem bind_eq_error {x : Except ε α} {f : α → Except ε β} {e : ε} :
    x >>= f = .error e ↔ x = .error e ∨ ∃ a, x = .ok a ∧ f a = .error e := by
  cases x with
  | error e => simp [bind, Except.bind]
  | ok a => simp [bind, Except.bind]

@[simp] theorem mapError_ok (f : ε → ε') (a : α) : (Except.ok a).mapError f = .ok a := rfl

@[simp] theorem mapError_error (f : ε → ε') (e : ε) :
    (Except.error e : Except ε α).mapError f = .error (f e) :=
  rfl

theorem mapError_eq_ok {f : ε → ε'} {x : Except ε α} {a : α} :
    x.mapError f = .ok a ↔ x = .ok a := by
  cases x with
  | error e => simp
  | ok b => simp

theorem during_eq_ok {context : Context} {x : Except Fault α} {a : α} :
    during context x = .ok a ↔ x = .ok a :=
  mapError_eq_ok

theorem during_eq_error {context : Context} {x : Except Fault α} {e : Fault} :
    during context x = .error e ↔ ∃ cause, x = .error cause ∧ Fault.within context cause = e := by
  cases x with
  | error cause => simp [during]
  | ok a => simp [during]

theorem eq_ok_get {x : Except ε α} (h : x.toOption.isSome = true) : x = .ok (x.toOption.get h) := by
  cases x with
  | error e => simp [Except.toOption] at h
  | ok a => rfl

theorem ok_of_toOption {x : Except ε α} {a : α} (h : x.toOption = some a) : x = .ok a := by
  cases x with
  | error e => simp [Except.toOption] at h
  | ok b =>
    rw [Except.toOption, Option.some.injEq] at h
    rw [h]

/-- What an item of the first list is related to. -/
theorem exists_of_forall₂ {R : α → β → Prop} {xs : List α} {ys : List β} (h : List.Forall₂ R xs ys) {x : α}
    (hx : x ∈ xs) : ∃ y ∈ ys, R x y := by
  obtain ⟨i, hi, rfl⟩ := List.getElem_of_mem hx
  have hi' : i < ys.length := h.length_eq ▸ hi
  exact ⟨ys[i], List.getElem_mem hi', h.get hi hi'⟩

/-- What a computation gave for each item. -/
theorem mapM_eq_ok {f : α → Except ε β} {xs : List α} {ys : List β} :
    xs.mapM f = .ok ys ↔ List.Forall₂ (fun x y => f x = .ok y) xs ys := by
  induction xs generalizing ys with
  | nil =>
    rw [List.mapM_nil, List.forall₂_nil_left_iff]
    constructor
    · intro h
      cases h
      rfl
    · rintro rfl
      rfl
  | cons x xs ih =>
    rw [List.mapM_cons, bind_eq_ok, List.forall₂_cons_left_iff]
    constructor
    · rintro ⟨y, hy, h⟩
      obtain ⟨zs, hzs, h⟩ := bind_eq_ok.mp h
      cases h
      exact ⟨y, zs, hy, ih.mp hzs, rfl⟩
    · rintro ⟨y, zs, hy, hzs, rfl⟩
      exact ⟨y, hy, bind_eq_ok.mpr ⟨zs, ih.mpr hzs, rfl⟩⟩

/-- A computation that succeeds for each item succeeds for all. -/
theorem exists_mapM_ok {f : α → Except ε β} {xs : List α} (h : ∀ x ∈ xs, ∃ y, f x = .ok y) :
    ∃ ys, xs.mapM f = .ok ys := by
  induction xs with
  | nil => exact ⟨[], rfl⟩
  | cons x xs ih =>
    obtain ⟨⟨y, hy⟩, hrest⟩ := List.forall_mem_cons.mp h
    obtain ⟨ys, hys⟩ := ih hrest
    refine ⟨y :: ys, ?_⟩
    rw [List.mapM_cons]
    exact bind_eq_ok.mpr ⟨y, hy, bind_eq_ok.mpr ⟨ys, hys, rfl⟩⟩

theorem mem_mapM_ok {f : α → Except ε β} {xs : List α} {ys : List β} (h : xs.mapM f = .ok ys) {y : β}
    (hy : y ∈ ys) : ∃ x ∈ xs, f x = .ok y := by
  induction xs generalizing ys with
  | nil =>
    simp only [List.mapM_nil, pure, Except.pure, Except.ok.injEq] at h
    subst h
    simp at hy
  | cons x xs ih =>
    rw [List.mapM_cons] at h
    obtain ⟨z, hz, h⟩ := bind_eq_ok.mp h
    obtain ⟨zs, hzs, h⟩ := bind_eq_ok.mp h
    simp only [pure, Except.pure, Except.ok.injEq] at h
    subst h
    rcases List.mem_cons.mp hy with rfl | hy
    · exact ⟨x, by simp, hz⟩
    · obtain ⟨x', hx', h'⟩ := ih hzs hy
      exact ⟨x', by simp [hx'], h'⟩

/-- If a computation fails for a list, it fails for an item. -/
theorem mapM_eq_error {f : α → Except ε β} {xs : List α} {e : ε} (h : xs.mapM f = .error e) :
    ∃ x ∈ xs, f x = .error e := by
  induction xs with
  | nil => cases h
  | cons x xs ih =>
    rw [List.mapM_cons] at h
    rcases bind_eq_error.mp h with hx | ⟨_, _, h⟩
    · exact ⟨x, List.mem_cons_self, hx⟩
    · rcases bind_eq_error.mp h with hrest | ⟨_, _, h⟩
      · obtain ⟨y, hy, hfails⟩ := ih hrest
        exact ⟨y, List.mem_cons_of_mem _ hy, hfails⟩
      · cases h

/-- A filter asks its condition of every item, and keeps those of which it holds. -/
theorem filterM_eq_ok {f : α → Except ε Bool} {xs ys : List α} :
    xs.filterM f = .ok ys ↔
      (∀ x ∈ xs, ∃ b, f x = .ok b) ∧ ys = xs.filter fun x => (f x).toOption.getD false := by
  have haux : ∀ (done kept : List α), List.filterAuxM f xs done = .ok kept ↔
      (∀ x ∈ xs, ∃ b, f x = .ok b) ∧
        kept = (xs.filter fun x => (f x).toOption.getD false).reverse ++ done := by
    induction xs with
    | nil =>
      intro done kept
      simp [List.filterAuxM, pure, Except.pure, eq_comm]
    | cons x xs ih =>
      intro done kept
      rw [List.filterAuxM, bind_eq_ok, List.forall_mem_cons]
      cases hx : f x with
      | error e => simp
      | ok b =>
        simp only [Except.ok.injEq, exists_eq_left', ih]
        cases b with
        | true => simp [hx, Except.toOption]
        | false => simp [hx, Except.toOption]
  rw [List.filterM, bind_eq_ok]
  constructor
  · rintro ⟨kept, hkept, h⟩
    obtain ⟨hasked, rfl⟩ := (haux [] kept).mp hkept
    obtain rfl := Except.ok.inj h
    exact ⟨hasked, by simp⟩
  · rintro ⟨hasked, rfl⟩
    exact ⟨_, (haux [] _).mpr ⟨hasked, rfl⟩, by simp [pure, Except.pure]⟩

theorem mem_filterM_ok {f : α → Except ε Bool} {xs ys : List α} (h : xs.filterM f = .ok ys) {y : α} :
    y ∈ ys ↔ y ∈ xs ∧ f y = .ok true := by
  obtain ⟨hasked, rfl⟩ := filterM_eq_ok.mp h
  rw [List.mem_filter]
  refine and_congr_right fun hy => ?_
  obtain ⟨b, hb⟩ := hasked y hy
  simp [hb, Except.toOption]

end DirectCall
