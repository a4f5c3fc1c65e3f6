import Mathlib.Data.List.Perm.Basic
import Mathlib.Data.Nat.Digits.Lemmas
import Mathlib.Data.Set.Function
import SlotBuild.Digest
import SlotBuild.Proofs.Bytes

/-! What can be read off the octets that are hashed. Every text stands behind its length, so the
octets of a list of texts determine the list, and a digest that is the same for every order of a
list determines it up to the order, as long as no two of the hashed octet strings collide. -/

namespace SlotBuild

namespace Bytes

theorem length_utf8EncodeChar_hexDigit {n : Nat} (h : n < 16) :
    (String.utf8EncodeChar (hexDigit n)).length = 1 := by
  have hall : ∀ k : Fin 16, (String.utf8EncodeChar (hexDigit k)).length = 1 := by decide
  exact hall ⟨n, h⟩

theorem length_ofString_toHex (b : Bytes) : (ofString (toHex b)).length = 2 * b.length := by
  rw [toHex, ofString_ofList]
  induction b with
  | nil => rfl
  | cons x b ih =>
    have hx := x.toNat_lt
    have hhi := length_utf8EncodeChar_hexDigit (n := x.toNat / 16) (by omega)
    have hlo := length_utf8EncodeChar_hexDigit (n := x.toNat % 16) (by omega)
    simp only [List.flatMap_cons, encode_append, encode_cons, encode_nil, List.length_append, ih, hhi, hlo,
      List.length_nil, List.length_cons]
    omega

theorem toHex_injective {a b : Bytes} (h : toHex a = toHex b) : a = b := by
  have hdigit : ∀ m n : Fin 16, hexDigit m = hexDigit n → m = n := by decide
  have hchars := String.ofList_injective h
  induction a generalizing b with
  | nil => cases b <;> simp_all
  | cons x a ih =>
    cases b with
    | nil => simp at hchars
    | cons y b =>
      simp only [List.flatMap_cons, List.cons_append, List.nil_append, List.cons.injEq] at hchars
      obtain ⟨hhi, hlo, hrest⟩ := hchars
      have hx := x.toNat_lt
      have hy := y.toNat_lt
      have hhi' := congrArg Fin.val (hdigit ⟨x.toNat / 16, by omega⟩ ⟨y.toNat / 16, by omega⟩ hhi)
      have hlo' := congrArg Fin.val (hdigit ⟨x.toNat % 16, by omega⟩ ⟨y.toNat % 16, by omega⟩ hlo)
      simp only at hhi' hlo'
      have hxy : x = y := UInt8.toNat_inj.mp (by omega)
      rw [hxy, ih (congrArg String.ofList hrest) hrest]

theorem le64_ne_add (n : Nat) : le64 n ≠ le64 (n + 64) := by
  intro h
  have hfirst : some (UInt8.ofNat (n >>> 0)) = some (UInt8.ofNat ((n + 64) >>> 0)) :=
    congrArg List.head? h
  have hmod := congrArg UInt8.toNat (Option.some.inj hfirst)
  simp only [Nat.shiftRight_zero, UInt8.toNat_ofNat'] at hmod
  omega

/-- The number that these octets show, the least octet first. -/
def value (b : Bytes) : Nat := Nat.ofDigits 256 (b.map UInt8.toNat)

theorem value_inj {a b : Bytes} (hlen : a.length = b.length) (h : value a = value b) : a = b := by
  have hsmall : ∀ c : Bytes, ∀ n ∈ c.map UInt8.toNat, n < 256 := by
    intro c n hn
    obtain ⟨x, -, rfl⟩ := List.mem_map.mp hn
    exact x.toNat_lt
  have hnumbers := Nat.ofDigits_inj_of_len_eq (by omega) (by simpa using hlen) (hsmall a) (hsmall b) h
  exact List.map_injective_iff.mpr (fun x y hxy => UInt8.toNat_inj.mp hxy) hnumbers

theorem value_lt (b : Bytes) : value b < 256 ^ b.length := by
  have hlt := Nat.ofDigits_lt_base_pow_length (b := 256) (l := b.map UInt8.toNat) (by omega) fun n hn => by
    obtain ⟨x, -, rfl⟩ := List.mem_map.mp hn
    exact x.toNat_lt
  rwa [List.length_map] at hlt

theorem ofDigits_octets (n k : Nat) :
    Nat.ofDigits 256 ((List.range k).map fun i => n / 256 ^ i % 256) = n % 256 ^ k := by
  induction k generalizing n with
  | zero => simp [Nat.mod_one]
  | succ k ih =>
    have hhigh : ((List.range k).map fun i => n / 256 ^ (i + 1) % 256) =
        (List.range k).map fun i => n / 256 / 256 ^ i % 256 :=
      List.map_congr_left fun i _ => by rw [Nat.div_div_eq_div_mul, Nat.pow_succ']
    rw [List.range_succ_eq_map, List.map_cons, List.map_map, Nat.ofDigits_cons]
    simp only [Function.comp_def, Nat.pow_zero, Nat.div_one]
    rw [hhigh, ih, Nat.pow_succ', Nat.mod_mul]

theorem value_le64 {n : Nat} (hn : n < 2 ^ 64) : value (le64 n) = n := by
  have hoctets : (le64 n).map UInt8.toNat = (List.range 8).map fun i => n / 256 ^ i % 256 := by
    rw [le64, List.map_map]
    refine List.map_congr_left fun i _ => ?_
    have hpow : 256 ^ i = 2 ^ (8 * i) := by rw [Nat.pow_mul]
    rw [Function.comp_apply, UInt8.toNat_ofNat', Nat.shiftRight_eq_div_pow, hpow]
  rw [value, hoctets, ofDigits_octets, Nat.mod_eq_of_lt (by omega)]

theorem le64_inj {m n : Nat} (hm : m < 2 ^ 64) (hn : n < 2 ^ 64) (h : le64 m = le64 n) : m = n := by
  rw [← value_le64 hm, h, value_le64 hn]

end Bytes

theorem Sha256.length_digest (message : Bytes) : (digest message).length = 32 := by
  simp [digest, State.words, bytesOf]

namespace Digest

def IsDigest (s : String) : Prop := ∃ b, s = ofBytes b

theorem isDigest_ofParts (parts : List String) : IsDigest (ofParts parts) := ⟨_, rfl⟩

theorem IsDigest.length {s : String} (h : IsDigest s) : (Bytes.ofString s).length = 64 := by
  obtain ⟨b, rfl⟩ := h
  rw [ofBytes, Bytes.length_ofString_toHex, Sha256.length_digest]

/-- No two of the octet strings in `S` have one digest. -/
def CollisionFree (S : Set Bytes) : Prop := Set.InjOn ofBytes S

theorem exists_collision {S : Set Bytes} (h : ¬ CollisionFree S) :
    ∃ a ∈ S, ∃ b ∈ S, a ≠ b ∧ Sha256.digest a = Sha256.digest b := by
  simp only [CollisionFree, Set.InjOn, not_forall] at h
  obtain ⟨a, ha, b, hb, hab, hne⟩ := h
  exact ⟨a, ha, b, hb, hne, Bytes.toHex_injective hab⟩

@[simp] theorem encodeParts_nil : encodeParts [] = [] := rfl

@[simp] theorem encodeParts_cons (p : String) (ps : List String) :
    encodeParts (p :: ps) = framed (Bytes.ofString p) ++ encodeParts ps := rfl

@[simp] theorem length_framed (b : Bytes) : (framed b).length = 8 + b.length := by simp [framed]

theorem framed_append_ne_nil (b x : Bytes) : framed b ++ x ≠ [] := by
  intro h
  have hlength := congrArg List.length h
  simp only [List.length_append, length_framed, List.length_nil] at hlength
  omega

theorem framed_append_inj {a b x y : Bytes} (h : framed a ++ x = framed b ++ y)
    (hlen : a.length = b.length) : a = b ∧ x = y := by
  obtain ⟨hab, hxy⟩ := List.append_inj h (by simp [hlen])
  exact ⟨(List.append_inj hab (by simp)).2, hxy⟩

/-- The octets of the text can be counted in 64 bits, as those of every text that is held in memory. -/
def Fits (s : String) : Prop := (Bytes.ofString s).length < 2 ^ 64

instance (s : String) : Decidable (Fits s) := inferInstanceAs (Decidable (_ < _))

theorem IsDigest.fits {s : String} (h : IsDigest s) : Fits s := by
  rw [Fits, h.length]
  omega

/-- A text behind its length is told from what follows it. -/
theorem Fits.eq_of_framed_eq {s r : String} {x y : Bytes} (hs : Fits s) (hr : Fits r)
    (h : framed (Bytes.ofString s) ++ x = framed (Bytes.ofString r) ++ y) : s = r ∧ x = y := by
  have hcounts : Bytes.le64 (Bytes.ofString s).length = Bytes.le64 (Bytes.ofString r).length := by
    simp only [framed, List.append_assoc] at h
    exact (List.append_inj h (by simp)).1
  obtain ⟨hsr, hxy⟩ := framed_append_inj h (Bytes.le64_inj hs hr hcounts)
  exact ⟨Bytes.ofString_injective hsr, hxy⟩

theorem encodeParts_inj {xs ys : List String} (hx : ∀ x ∈ xs, Fits x) (hy : ∀ y ∈ ys, Fits y)
    (h : encodeParts xs = encodeParts ys) : xs = ys := by
  induction xs generalizing ys with
  | nil =>
    cases ys with
    | nil => rfl
    | cons y ys => exact absurd h.symm (framed_append_ne_nil _ _)
  | cons x xs ih =>
    cases ys with
    | nil => exact absurd h (framed_append_ne_nil _ _)
    | cons y ys =>
      obtain ⟨rfl, hrest⟩ := (hx x List.mem_cons_self).eq_of_framed_eq (hy y List.mem_cons_self) h
      have htail := ih (fun z hz => hx z (List.mem_cons_of_mem x hz))
        (fun z hz => hy z (List.mem_cons_of_mem x hz)) hrest
      rw [htail]

theorem sortedParts_perm (parts : List String) : (sortedParts parts).Perm parts := List.mergeSort_perm _ _

theorem sortedParts_congr {xs ys : List String} (h : xs.Perm ys) : sortedParts xs = sortedParts ys := by
  have hsorted : ∀ zs, (sortedParts zs).Pairwise fun a b => decide (a ≤ b) = true := fun zs =>
    List.pairwise_mergeSort
      (fun a b c hab hbc => by simpa using String.le_trans (by simpa using hab) (by simpa using hbc))
      (fun a b => by simpa using String.le_total a b) zs
  refine List.Perm.eq_of_pairwise (fun a b _ _ hab hba => ?_) (hsorted xs) (hsorted ys) ?_
  · exact String.le_antisymm (of_decide_eq_true hab) (of_decide_eq_true hba)
  · exact ((sortedParts_perm xs).trans h).trans (sortedParts_perm ys).symm

theorem perm_of_encodeParts_sortedParts_eq {xs ys : List String} (hx : ∀ x ∈ xs, Fits x)
    (hy : ∀ y ∈ ys, Fits y)
    (h : encodeParts (sortedParts xs) = encodeParts (sortedParts ys)) : xs.Perm ys := by
  have hsorted : sortedParts xs = sortedParts ys :=
    encodeParts_inj (fun x hx' => hx x ((sortedParts_perm xs).mem_iff.mp hx'))
      (fun y hy' => hy y ((sortedParts_perm ys).mem_iff.mp hy')) h
  calc xs.Perm (sortedParts xs) := (sortedParts_perm xs).symm
    _ = sortedParts ys := hsorted
    _ |>.Perm ys := sortedParts_perm ys

theorem perm_of_ofUnordered_eq {S : Set Bytes} (hfree : CollisionFree S) {xs ys : List String}
    (hx : ∀ x ∈ xs, IsDigest x) (hy : ∀ y ∈ ys, IsDigest y) (hxs : encodeParts (sortedParts xs) ∈ S)
    (hys : encodeParts (sortedParts ys) ∈ S) (h : ofUnordered xs = ofUnordered ys) : xs.Perm ys :=
  perm_of_encodeParts_sortedParts_eq (fun x hx' => (hx x hx').fits) (fun y hy' => (hy y hy').fits)
    (hfree hxs hys h)

end Digest

end SlotBuild
