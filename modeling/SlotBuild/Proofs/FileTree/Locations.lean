import SlotBuild.FileTree.Digest
import SlotBuild.Proofs.Digest
import SlotBuild.Proofs.Failure

/-! What the fingerprint of some locations tells of them: which paths they are and the digest of
what lies at each, as often as it is given, but not in which order. -/

namespace SlotBuild.FileTree

/-- What is hashed to fingerprint locations, the contents that lie there apart. -/
def hashed (t : FileTree) (cwd : Key) (ps : List Path) : Set Bytes :=
  {b | (∃ p ∈ ps, ∃ content, t.digestLocation cwd p = .ok content ∧
    b = Digest.encodeParts [p.text, content]) ∨
    ∃ digests, t.digestLocations cwd ps = .ok digests ∧ b = Digest.encodeParts (Digest.sortedParts digests)}

/-- Each location with its path and the digest of what lies there. -/
def digested (t : FileTree) (cwd : Key) (ps : List Path) : List (String × Except AccessError String) :=
  ps.map fun p => (p.text, t.digestLocation cwd p)

variable {t u : FileTree} {cwd cwd' : Key} {ps qs : List Path}

theorem paths_digested (t : FileTree) (cwd : Key) (ps : List Path) :
    (t.digested cwd ps).map (fun x => Path.mk x.1) = ps := by
  rw [digested, List.map_map]
  exact List.map_id ps

theorem digestLocations_eq_mapM (t : FileTree) (cwd : Key) (ps : List Path) : t.digestLocations cwd ps =
    (t.digested cwd ps).mapM fun x => x.2.map fun content => Digest.ofParts [x.1, content] := by
  induction ps with
  | nil => rfl
  | cons p rest ih =>
    rw [digestLocations, ih]
    simp only [digested, List.map_cons, List.mapM_cons]
    cases t.digestLocation cwd p <;> rfl

theorem isDigest_of_digestLocation {p : Path} {digest : String} (h : t.digestLocation cwd p = .ok digest) :
    Digest.IsDigest digest := by
  unfold digestLocation at h
  split at h
  · obtain ⟨content, -, h⟩ := bind_eq_ok.mp h
    rw [← Except.ok.inj h]
    exact Digest.isDigest_ofParts _
  · obtain ⟨content, -, h⟩ := bind_eq_ok.mp h
    rw [← Except.ok.inj h]
    exact Digest.isDigest_ofParts _
  · simp at h

theorem digestLocations_ok {digests : List String} (h : t.digestLocations cwd ps = .ok digests) :
    List.Forall₂ (fun digest p => p ∈ ps ∧ ∃ content, t.digestLocation cwd p = .ok content ∧
      digest = Digest.ofParts [p.text, content]) digests ps := by
  induction ps generalizing digests with
  | nil =>
    obtain rfl : [] = digests := by simpa [digestLocations] using h
    exact .nil
  | cons p rest ih =>
    obtain ⟨content, hp, h⟩ := bind_eq_ok.mp h
    obtain ⟨more, hrest, h⟩ := bind_eq_ok.mp h
    obtain rfl : Digest.ofParts [p.text, content] :: more = digests := by simpa [pure, Except.pure] using h
    exact .cons ⟨List.mem_cons_self, content, hp, rfl⟩
      ((ih hrest).imp fun _ q hq => ⟨List.mem_cons_of_mem p hq.1, hq.2⟩)

theorem isDigest_of_digestLocations {digests : List String} (h : t.digestLocations cwd ps = .ok digests) :
    ∀ digest ∈ digests, Digest.IsDigest digest := by
  intro digest hd
  obtain ⟨p, -, -, content, -, rfl⟩ := exists_right_of_forall₂ (digestLocations_ok h) digest hd
  exact Digest.isDigest_ofParts _

/-- A path is told apart from its content without a bound on its length, as the content is a digest. -/
theorem location_eq_of_encodeParts {p q : Path} {content content' : String} (hc : Digest.IsDigest content)
    (hc' : Digest.IsDigest content')
    (h : Digest.encodeParts [p.text, content] = Digest.encodeParts [q.text, content']) :
    p = q ∧ content = content' := by
  have htotal := congrArg List.length h
  have hcontents := hc.length.trans hc'.length.symm
  simp only [Digest.encodeParts_cons, Digest.encodeParts_nil, List.length_append, Digest.length_framed,
    List.length_nil] at htotal
  simp only [Digest.encodeParts_cons] at h
  obtain ⟨htext, hrest⟩ := Digest.framed_append_inj h (by omega)
  obtain ⟨hcontent, -⟩ := Digest.framed_append_inj hrest hcontents
  cases p
  cases q
  exact ⟨congrArg Path.mk (Bytes.ofString_injective htext), Bytes.ofString_injective hcontent⟩

theorem digestLocations_of_digested_perm (h : (t.digested cwd ps).Perm (u.digested cwd' qs))
    {digests : List String} (hps : t.digestLocations cwd ps = .ok digests) :
    ∃ digests', u.digestLocations cwd' qs = .ok digests' ∧ digests.Perm digests' := by
  rw [digestLocations_eq_mapM] at hps ⊢
  exact mapM_perm h hps

theorem digestLocations_perm (h : ps.Perm qs) {digests : List String}
    (hps : t.digestLocations cwd ps = .ok digests) :
    ∃ digests', t.digestLocations cwd qs = .ok digests' ∧ digests.Perm digests' :=
  digestLocations_of_digested_perm (h.map _) hps

theorem exists_fingerprint (h : ∀ p ∈ ps, ∃ content, t.digestLocation cwd p = .ok content) :
    ∃ fingerprint, t.fingerprint cwd ps = .ok fingerprint := by
  obtain ⟨digests, hdigests⟩ : ∃ digests, t.digestLocations cwd ps = .ok digests := by
    rw [digestLocations_eq_mapM]
    refine exists_mapM_eq_ok fun x hx => ?_
    obtain ⟨p, hp, rfl⟩ := List.mem_map.mp hx
    obtain ⟨content, hcontent⟩ := h p hp
    exact ⟨Digest.ofParts [p.text, content], by rw [hcontent]; rfl⟩
  exact ⟨_, bind_eq_ok.mpr ⟨digests, hdigests, rfl⟩⟩

theorem fingerprint_of_digested_perm (h : (t.digested cwd ps).Perm (u.digested cwd' qs))
    {fingerprint : String}
    (hp : t.fingerprint cwd ps = .ok fingerprint) : u.fingerprint cwd' qs = .ok fingerprint := by
  obtain ⟨digests, hps, hp⟩ := bind_eq_ok.mp hp
  obtain ⟨digests', hqs, hperm⟩ := digestLocations_of_digested_perm h hps
  rw [← Except.ok.inj hp, Digest.ofUnordered, Digest.sortedParts_congr hperm]
  exact bind_eq_ok.mpr ⟨digests', hqs, rfl⟩

theorem fingerprint_perm (h : ps.Perm qs) {fingerprint : String}
    (hp : t.fingerprint cwd ps = .ok fingerprint) :
    t.fingerprint cwd qs = .ok fingerprint := fingerprint_of_digested_perm (h.map _) hp

theorem digested_perm_of_fingerprint_eq {S : Set Bytes} (hfree : Digest.CollisionFree S)
    {fingerprint : String}
    (hp : t.fingerprint cwd ps = .ok fingerprint) (hq : u.fingerprint cwd' qs = .ok fingerprint)
    (hpS : t.hashed cwd ps ⊆ S) (hqS : u.hashed cwd' qs ⊆ S) :
    (t.digested cwd ps).Perm (u.digested cwd' qs) := by
  obtain ⟨digests, hps, hp⟩ := bind_eq_ok.mp hp
  obtain ⟨digests', hqs, hq⟩ := bind_eq_ok.mp hq
  have hsame : Digest.ofUnordered digests = Digest.ofUnordered digests' :=
    (Except.ok.inj hp).trans (Except.ok.inj hq).symm
  have hall := digestLocations_ok hps
  have hall' := digestLocations_ok hqs
  have hperm : digests.Perm digests' := Digest.perm_of_ofUnordered_eq hfree (isDigest_of_digestLocations hps)
    (isDigest_of_digestLocations hqs) (hpS (Or.inr ⟨_, hps, rfl⟩)) (hqS (Or.inr ⟨_, hqs, rfl⟩)) hsame
  obtain ⟨qs', hqs', hqperm⟩ := List.perm_comp_forall₂ hperm hall'
  have hsames : t.digested cwd ps = u.digested cwd' qs' := by
    refine map_eq_of_forall₂ hall hqs' fun d _ p q hdp hdq => ?_
    obtain ⟨hp, content, hcontent, rfl⟩ := hdp
    obtain ⟨hq, content', hcontent', heq⟩ := hdq
    have hoctets : Digest.encodeParts [p.text, content] = Digest.encodeParts [q.text, content'] :=
      hfree (hpS (Or.inl ⟨p, hp, content, hcontent, rfl⟩))
        (hqS (Or.inl ⟨q, hq, content', hcontent', rfl⟩)) heq
    obtain ⟨rfl, rfl⟩ := location_eq_of_encodeParts (isDigest_of_digestLocation hcontent)
      (isDigest_of_digestLocation hcontent') hoctets
    rw [hcontent, hcontent']
  rw [hsames]
  exact hqperm.map _

theorem perm_of_fingerprint_eq {S : Set Bytes} (hfree : Digest.CollisionFree S) {fingerprint : String}
    (hp : t.fingerprint cwd ps = .ok fingerprint) (hq : u.fingerprint cwd' qs = .ok fingerprint)
    (hpS : t.hashed cwd ps ⊆ S) (hqS : u.hashed cwd' qs ⊆ S) : ps.Perm qs := by
  have hpaths := (digested_perm_of_fingerprint_eq hfree hp hq hpS hqS).map fun x => Path.mk x.1
  rwa [paths_digested, paths_digested] at hpaths

end SlotBuild.FileTree
