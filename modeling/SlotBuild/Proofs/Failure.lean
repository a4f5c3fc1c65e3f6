import Mathlib.Data.List.Perm.Basic

/-! Computations that can fail: when a sequence of them succeeds and with what. -/

namespace SlotBuild

variable {ε α β : Type}

theorem bind_eq_ok {x : Except ε α} {f : α → Except ε β} {b : β} :
    x >>= f = .ok b ↔ ∃ a, x = .ok a ∧ f a = .ok b := by
  cases x with
  | error e => simp [bind, Except.bind]
  | ok a => simp [bind, Except.bind]

theorem bind_eq_error {x : Except ε α} {f : α → Except ε β} {e : ε} :
    x >>= f = .error e ↔ x = .error e ∨ ∃ a, x = .ok a ∧ f a = .error e := by
  cases x with
  | error e' => simp [bind, Except.bind]
  | ok a => simp [bind, Except.bind]

theorem map_bind {γ : Type} (k : β → γ) (x : Except ε α) (f : α → Except ε β) :
    (x >>= f).map k = x >>= fun a => (f a).map k := by
  cases x <;> rfl

theorem mapM_eq_ok {f : α → Except ε β} {xs : List α} {ys : List β} :
    xs.mapM f = .ok ys ↔ List.Forall₂ (fun x y => f x = .ok y) xs ys := by
  induction xs generalizing ys with
  | nil => simp [pure, Except.pure, eq_comm]
  | cons x xs ih =>
    rw [List.mapM_cons, bind_eq_ok]
    constructor
    · rintro ⟨y, hy, h⟩
      obtain ⟨zs, hzs, heq⟩ := bind_eq_ok.mp h
      obtain rfl : y :: zs = ys := by simpa [pure, Except.pure] using heq
      exact .cons hy (ih.mp hzs)
    · rintro (_ | ⟨hy, hys⟩)
      exact ⟨_, hy, bind_eq_ok.mpr ⟨_, ih.mpr hys, rfl⟩⟩

theorem exists_mapM_eq_ok {f : α → Except ε β} {xs : List α} (h : ∀ x ∈ xs, ∃ y, f x = .ok y) :
    ∃ ys, xs.mapM f = .ok ys := by
  induction xs with
  | nil => exact ⟨[], rfl⟩
  | cons x xs ih =>
    obtain ⟨y, hy⟩ := h x List.mem_cons_self
    obtain ⟨ys, hys⟩ := ih fun x' hx' => h x' (List.mem_cons_of_mem x hx')
    exact ⟨y :: ys, mapM_eq_ok.mpr (.cons hy (mapM_eq_ok.mp hys))⟩

theorem mapM_perm {f : α → Except ε β} {xs xs' : List α} {ys : List β} (h : xs.Perm xs')
    (hys : xs.mapM f = .ok ys) : ∃ ys', xs'.mapM f = .ok ys' ∧ ys.Perm ys' := by
  obtain ⟨ys', hys', hperm⟩ := List.perm_comp_forall₂ h.symm (mapM_eq_ok.mp hys)
  exact ⟨ys', mapM_eq_ok.mpr hys', hperm.symm⟩

theorem mapM_map_congr {γ : Type} {f g : α → Except ε β} {k : β → γ} {xs : List α}
    (h : ∀ x ∈ xs, (f x).map k = (g x).map k) :
    (xs.mapM f).map (List.map k) = (xs.mapM g).map (List.map k) := by
  induction xs with
  | nil => rfl
  | cons x xs ih =>
    have hhead := h x List.mem_cons_self
    have htail := ih fun x' hx' => h x' (List.mem_cons_of_mem x hx')
    rw [List.mapM_cons, List.mapM_cons]
    cases hf : f x <;> cases hg : g x <;> simp only [hf, hg, Except.map, reduceCtorEq] at hhead
    · rw [Except.error.inj hhead]
      rfl
    · cases hfs : xs.mapM f <;> cases hgs : xs.mapM g <;>
        simp only [hfs, hgs, Except.map, reduceCtorEq] at htail
      · rw [Except.error.inj htail]
        rfl
      · have hheads := Except.ok.inj hhead
        have htails := Except.ok.inj htail
        simp [bind, Except.bind, pure, Except.pure, Except.map, hheads, htails]

theorem mapM_eq_some {f : α → Option β} {xs : List α} {ys : List β} :
    xs.mapM f = some ys ↔ List.Forall₂ (fun x y => f x = some y) xs ys := by
  induction xs generalizing ys with
  | nil => simp [eq_comm]
  | cons x xs ih =>
    rw [List.mapM_cons]
    constructor
    · intro h
      obtain ⟨y, hy, h⟩ := Option.bind_eq_some_iff.mp h
      obtain ⟨zs, hzs, heq⟩ := Option.bind_eq_some_iff.mp h
      obtain rfl : y :: zs = ys := by simpa using heq
      exact .cons hy (ih.mp hzs)
    · rintro (_ | ⟨hy, hys⟩)
      exact Option.bind_eq_some_iff.mpr ⟨_, hy, Option.bind_eq_some_iff.mpr ⟨_, ih.mpr hys, rfl⟩⟩

theorem exists_right_of_forall₂ {R : α → β → Prop} {xs : List α} {ys : List β}
    (h : List.Forall₂ R xs ys) : ∀ x ∈ xs, ∃ y ∈ ys, R x y := by
  induction h with
  | nil => simp
  | cons hxy _ ih =>
    intro x hx
    rcases List.mem_cons.mp hx with rfl | hx
    · exact ⟨_, List.mem_cons_self, hxy⟩
    · obtain ⟨y, hy, hR⟩ := ih x hx
      exact ⟨y, List.mem_cons_of_mem _ hy, hR⟩

theorem exists_left_of_forall₂ {R : α → β → Prop} {xs : List α} {ys : List β}
    (h : List.Forall₂ R xs ys) : ∀ y ∈ ys, ∃ x ∈ xs, R x y :=
  exists_right_of_forall₂ h.flip

theorem map_eq_of_related {α β γ δ ε : Type} {P : α → β → Prop} {R : α → γ → Prop} {S : β → δ → Prop}
    {f : γ → ε} {g : δ → ε} {xs : List α} {ys : List β} {us : List γ} {vs : List δ}
    (hxy : List.Forall₂ P xs ys) (hx : List.Forall₂ R xs us) (hy : List.Forall₂ S ys vs)
    (h : ∀ x ∈ xs, ∀ y u v, P x y → R x u → S y v → f u = g v) : us.map f = vs.map g := by
  induction hxy generalizing us vs with
  | nil =>
    cases hx
    cases hy
    rfl
  | @cons x y xs ys hxy _ ih =>
    cases hx with
    | @cons _ u _ us hxu hx =>
      cases hy with
      | @cons _ v _ vs hyv hy =>
        have hhead := h x List.mem_cons_self y u v hxy hxu hyv
        have htail := ih hx hy fun x' hx' => h x' (List.mem_cons_of_mem x hx')
        rw [List.map_cons, List.map_cons, hhead, htail]

theorem map_eq_of_forall₂ {α β γ δ : Type} {R : α → β → Prop} {S : α → γ → Prop} {f : β → δ} {g : γ → δ}
    {xs : List α} {ys : List β} {zs : List γ} (hy : List.Forall₂ R xs ys) (hz : List.Forall₂ S xs zs)
    (h : ∀ x ∈ xs, ∀ y z, R x y → S x z → f y = g z) : ys.map f = zs.map g := by
  refine map_eq_of_related (P := Eq) (List.forall₂_same.mpr fun _ _ => rfl) hy hz ?_
  rintro x hx _ y z rfl
  exact h x hx y z

end SlotBuild
