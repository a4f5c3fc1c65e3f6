import SlotBuild.Proofs.FileTree.Locations

/-! The octets that are hashed lose nothing. A list of texts is written in one way and read in one
way; where the order of the texts plays no part, they are told up to their order. So a fingerprint
tells the paths of its locations and what lies there, as long as nothing that was hashed for it
collides. -/

namespace SlotBuild

namespace Digest

/-- How a list of texts is written: each text in UTF-8 behind the number of its octets, which takes
eight octets with the least one first. -/
inductive Written : List String → Bytes → Prop
  | nil : Written [] []
  | cons {text : String} {texts : List String} {count rest : Bytes} (width : count.length = 8)
      (counts : Bytes.value count = (Bytes.ofString text).length) (more : Written texts rest) :
      Written (text :: texts) (count ++ Bytes.ofString text ++ rest)

variable {xs : List String} {b : Bytes}

theorem eq_le64_value (h : b.length = 8) : b = Bytes.le64 (Bytes.value b) := by
  have hlt := Bytes.value_lt b
  rw [h] at hlt
  exact Bytes.value_inj (by simp [h]) (Bytes.value_le64 (by omega)).symm

theorem Written.eq_encodeParts (h : Written xs b) : b = encodeParts xs := by
  induction h with
  | nil => rfl
  | cons width counts _ ih => rw [encodeParts_cons, framed, ← counts, ← eq_le64_value width, ← ih]

theorem written_encodeParts (hx : ∀ x ∈ xs, Fits x) : Written xs (encodeParts xs) := by
  induction xs with
  | nil => exact .nil
  | cons x xs ih =>
    obtain ⟨hx, hrest⟩ := List.forall_mem_cons.mp hx
    exact .cons (Bytes.length_le64 _) (Bytes.value_le64 hx) (ih hrest)

end Digest

/-- What is hashed for a list of texts is the list as it is written, and no other list is hashed as
the same octets. What is hashed for texts in no order is the same for these texts in any order, and
for no others. Hence two fingerprints of locations agree if the paths and the digests of what lies
there do, each pair as often as it occurs; and they agree only then, unless two of the octet strings
that were hashed collide. -/
theorem encodings_lossless :
    (∀ xs ys : List String, (∀ x ∈ xs, Digest.Fits x) → (∀ y ∈ ys, Digest.Fits y) →
      (∀ b, Digest.Written xs b ↔ b = Digest.encodeParts xs) ∧
      (Digest.encodeParts xs = Digest.encodeParts ys ↔ xs = ys) ∧
      (Digest.encodeParts (Digest.sortedParts xs) = Digest.encodeParts (Digest.sortedParts ys) ↔
        xs.Perm ys)) ∧
    ∀ (t u : FileTree) (cwd cwd' : Key) (ps qs : List Path),
      (∀ p ∈ ps, ∃ content, t.digestLocation cwd p = .ok content) →
      (∀ q ∈ qs, ∃ content, u.digestLocation cwd' q = .ok content) →
      ∃ f f', t.fingerprint cwd ps = .ok f ∧ u.fingerprint cwd' qs = .ok f' ∧
        ((t.digested cwd ps).Perm (u.digested cwd' qs) → f = f') ∧
        (f = f' → (t.digested cwd ps).Perm (u.digested cwd' qs) ∨
          ∃ a ∈ t.hashed cwd ps ∪ u.hashed cwd' qs, ∃ b ∈ t.hashed cwd ps ∪ u.hashed cwd' qs,
            a ≠ b ∧ Sha256.digest a = Sha256.digest b) := by
  constructor
  · intro xs ys hx hy
    refine ⟨fun b => ⟨Digest.Written.eq_encodeParts, ?_⟩, ⟨Digest.encodeParts_inj hx hy, congrArg _⟩, ?_⟩
    · rintro rfl
      exact Digest.written_encodeParts hx
    · exact ⟨Digest.perm_of_encodeParts_sortedParts_eq hx hy, fun h => by rw [Digest.sortedParts_congr h]⟩
  · intro t u cwd cwd' ps qs hps hqs
    obtain ⟨f, hf⟩ := FileTree.exists_fingerprint hps
    obtain ⟨f', hf'⟩ := FileTree.exists_fingerprint hqs
    refine ⟨f, f', hf, hf', fun h => ?_, ?_⟩
    · exact Except.ok.inj ((FileTree.fingerprint_of_digested_perm h hf).symm.trans hf')
    · rintro rfl
      by_cases hfree : Digest.CollisionFree (t.hashed cwd ps ∪ u.hashed cwd' qs)
      · exact Or.inl (FileTree.digested_perm_of_fingerprint_eq hfree hf hf' Set.subset_union_left
          Set.subset_union_right)
      · exact Or.inr (Digest.exists_collision hfree)

namespace FileTree.Chest

/-- Two files, listed one way here and the other way round after a third has come. -/
def before : FileTree := ⟨[(["a"], .file [1]), (["b"], .file [2])]⟩

def later : FileTree := ⟨[(["c"], .file [3]), (["b"], .file [2]), (["a"], .file [1])]⟩

def zeros : String := String.ofList (List.replicate 8 '\x00')

theorem files_there (t : FileTree) (ht : t = before ∨ t = later) : ∀ p ∈ [Path.mk "a", Path.mk "b"],
    ∃ content, t.digestLocation [] p = .ok content := by
  simp only [List.forall_mem_cons]
  rcases ht with rfl | rfl
  · exact ⟨⟨_, rfl⟩, ⟨_, rfl⟩, by simp⟩
  · exact ⟨⟨_, rfl⟩, ⟨_, rfl⟩, by simp⟩

/-- Two empty texts are not taken for one whose octets look like a length. -/
theorem kept_apart : Digest.encodeParts ["", ""] ≠ Digest.encodeParts [zeros] ∧
    Digest.encodeParts (Digest.sortedParts ["b", "a", "b"]) =
      Digest.encodeParts (Digest.sortedParts ["b", "b", "a"]) ∧
    ∃ f, before.fingerprint [] [⟨"a"⟩, ⟨"b"⟩] = .ok f ∧ later.fingerprint [] [⟨"b"⟩, ⟨"a"⟩] = .ok f := by
  obtain ⟨htexts, hlocations⟩ := encodings_lossless
  obtain ⟨-, happart, -⟩ := htexts ["", ""] [zeros] (by decide) (by decide)
  obtain ⟨-, -, hsame⟩ := htexts ["b", "a", "b"] ["b", "b", "a"] (by decide) (by decide)
  have hbefore := files_there before (Or.inl rfl)
  have hlater : ∀ q ∈ [Path.mk "b", Path.mk "a"], ∃ content, later.digestLocation [] q = .ok content :=
    fun q hq => files_there later (Or.inr rfl) q (by simpa [or_comm] using hq)
  obtain ⟨f, f', hf, hf', hagree, -⟩ := hlocations before later [] [] _ _ hbefore hlater
  have hcontents : (before.digested [] [⟨"a"⟩, ⟨"b"⟩]).Perm (later.digested [] [⟨"b"⟩, ⟨"a"⟩]) := .swap _ _ _
  obtain rfl := hagree hcontents
  exact ⟨mt happart.mp (by decide), hsame.mpr (by decide), f, hf, hf'⟩

end FileTree.Chest

end SlotBuild
