import Mathlib.Data.Multiset.Basic
import SlotBuild.Evaluation
import SlotBuild.Proofs.Digest

/-! What an input fingerprint tells: from the same fingerprint of the same task follow the same
configuration and, slot by slot, the same contents, as long as nothing that was hashed collides. -/

namespace SlotBuild

theorem exists_forall₂_of_map_perm {α β γ : Type} {f : α → γ} {g : β → γ} {R : α → β → Prop} {xs : List α}
    {ys : List β} (hR : ∀ x ∈ xs, ∀ y ∈ ys, f x = g y → R x y) (h : (xs.map f).Perm (ys.map g)) :
    ∃ zs, List.Forall₂ R xs zs ∧ zs.Perm ys := by
  have hys : List.Forall₂ (fun b y => g y = b) (ys.map g) ys :=
    List.forall₂_map_left_iff.mpr (List.forall₂_same.mpr fun y _ => rfl)
  obtain ⟨zs, hzs, hperm⟩ := List.perm_comp_forall₂ h hys
  obtain ⟨hlen, hall⟩ := List.forall₂_iff_zip.mp (List.forall₂_map_left_iff.mp hzs)
  refine ⟨zs, List.forall₂_iff_zip.mpr ⟨hlen, fun {x z} hxz => ?_⟩, hperm⟩
  obtain ⟨hx, hz⟩ := List.of_mem_zip hxz
  exact hR x hx z (hperm.mem_iff.mp hz) (hall hxz).symm

theorem map_perm_of_map_perm {α β γ : Type} {f : α → β} {k : α → γ} {xs ys : List α}
    (hk : ∀ x ∈ xs, ∀ y ∈ ys, f x = f y → k x = k y) (h : (xs.map f).Perm (ys.map f)) :
    (xs.map k).Perm (ys.map k) := by
  obtain ⟨zs, hzs, hperm⟩ := exists_forall₂_of_map_perm hk h
  have hsame : xs.map k = zs.map k := by
    rw [← List.forall₂_eq_eq_eq, List.forall₂_map_left_iff, List.forall₂_map_right_iff]
    exact hzs
  rw [hsame]
  exact hperm.map k

/-- The digests of the record are ones, so that their length is known. -/
structure Record.Digested (r : Record) : Prop where
  content : Digest.IsDigest r.fingerprint
  inputs : ∀ f ∈ r.inputFingerprint, Digest.IsDigest f

namespace Fingerprint

theorem combine_congr {digests digests' : List String} (h : digests.Perm digests') (task : TaskId)
    (configDigest : String) : combine task configDigest digests = combine task configDigest digests' := by
  rw [combine, combine, Digest.ofUnordered, Digest.ofUnordered, Digest.sortedParts_congr h]

def recordBytes (r : Record) : Bytes :=
  Digest.encodeParts [r.slot, r.fingerprint, r.inputFingerprint.getD ""]

def combinedBytes (task : TaskId) (configDigest : String) (digests : List String) : Bytes :=
  Digest.encodeParts ["kiln-inputs-v1", task, configDigest, Digest.ofUnordered digests]

def counted (t : Task) (records : List Record) : List Record :=
  records.filter fun r => t.filter.includes r.slot

theorem counted_of_all {t : Task} (h : t.filter = .all) (records : List Record) :
    counted t records = records := by
  rw [counted, h]
  exact List.filter_eq_self.mpr fun r _ => rfl

/-- Every octet string that is hashed for an input fingerprint. -/
def hashed (t : Task) (records : List Record) : List Bytes :=
  combinedBytes t.id t.configDigest ((counted t records).map ofRecord) ::
    Digest.encodeParts (Digest.sortedParts ((counted t records).map ofRecord)) ::
      (counted t records).map recordBytes

theorem length_recordBytes {r : Record} (h : r.Digested) : (recordBytes r).length =
    (Bytes.ofString r.slot).length + 88 + if r.inputFingerprint = none then 0 else 64 := by
  have hcontent := h.content.length
  have hinputs : (Bytes.ofString (r.inputFingerprint.getD "")).length =
      if r.inputFingerprint = none then 0 else 64 := by
    cases hf : r.inputFingerprint with
    | none => rfl
    | some f => simpa using (h.inputs f hf).length
  simp only [recordBytes, Digest.encodeParts_cons, Digest.encodeParts_nil, List.length_append,
    Digest.length_framed, hcontent, hinputs, List.length_nil]
  omega

/-- What a record counts with. -/
def fields (r : Record) : SlotId × String × Option String := (r.slot, r.fingerprint, r.inputFingerprint)

theorem recordBytes_inj {r r' : Record} (h : r.Digested) (h' : r'.Digested)
    (heq : recordBytes r = recordBytes r') : fields r = fields r' := by
  have hcounts : Bytes.le64 (Bytes.ofString r.slot).length = Bytes.le64 (Bytes.ofString r'.slot).length := by
    simp only [recordBytes, Digest.encodeParts_cons, Digest.framed, List.append_assoc] at heq
    exact (List.append_inj heq (by simp)).1
  have htotal := congrArg List.length heq
  rw [length_recordBytes h, length_recordBytes h'] at htotal
  -- A record with an input fingerprint is longer by 64 octets, and no length is shown as one that
  -- much greater.
  obtain ⟨hlen, hkind⟩ : (Bytes.ofString r.slot).length = (Bytes.ofString r'.slot).length ∧
      (r.inputFingerprint = none ↔ r'.inputFingerprint = none) := by
    split at htotal <;> split at htotal
    · exact ⟨by omega, by simp_all⟩
    · refine absurd ?_ (Bytes.le64_ne_add (Bytes.ofString r'.slot).length)
      rw [← hcounts]
      congr 1
      omega
    · refine absurd ?_ (Bytes.le64_ne_add (Bytes.ofString r.slot).length)
      rw [hcounts]
      congr 1
      omega
    · exact ⟨by omega, by simp_all⟩
  simp only [recordBytes, Digest.encodeParts_cons] at heq
  obtain ⟨hslot, hrest⟩ := Digest.framed_append_inj heq hlen
  obtain ⟨hcontent, hrest⟩ := Digest.framed_append_inj hrest (h.content.length.trans h'.content.length.symm)
  have hinputs : r.inputFingerprint = r'.inputFingerprint := by
    cases hf : r.inputFingerprint with
    | none => exact (hkind.mp hf).symm
    | some f =>
      obtain ⟨f', hf'⟩ := Option.ne_none_iff_exists'.mp (mt hkind.mpr (by simp [hf]))
      rw [hf, hf', Option.getD_some, Option.getD_some] at hrest
      have hlen := (h.inputs f hf).length.trans (h'.inputs f' hf').length.symm
      rw [hf', Bytes.ofString_injective (Digest.framed_append_inj hrest hlen).1]
  rw [fields, fields, Bytes.ofString_injective hslot, Bytes.ofString_injective hcontent, hinputs]

theorem combinedBytes_inj {task task' config config' : String} {digests digests' : List String}
    (hconfig : Digest.IsDigest config) (hconfig' : Digest.IsDigest config')
    (h : combinedBytes task config digests = combinedBytes task' config' digests') :
    task = task' ∧ config = config' ∧ Digest.ofUnordered digests = Digest.ofUnordered digests' := by
  have hlast : (Bytes.ofString (Digest.ofUnordered digests)).length =
      (Bytes.ofString (Digest.ofUnordered digests')).length :=
    (Digest.isDigest_ofParts _).length.trans (Digest.isDigest_ofParts _).length.symm
  have hmid := hconfig.length.trans hconfig'.length.symm
  have htotal := congrArg List.length h
  simp only [combinedBytes, Digest.encodeParts_cons, Digest.encodeParts_nil, List.length_append,
    Digest.length_framed, List.length_nil] at htotal
  simp only [combinedBytes, Digest.encodeParts_cons] at h
  obtain ⟨-, h⟩ := Digest.framed_append_inj h rfl
  obtain ⟨htask, h⟩ := Digest.framed_append_inj h (by omega)
  obtain ⟨hconfigs, h⟩ := Digest.framed_append_inj h hmid
  obtain ⟨hrecords, -⟩ := Digest.framed_append_inj h hlast
  exact ⟨Bytes.ofString_injective htask, Bytes.ofString_injective hconfigs, Bytes.ofString_injective hrecords⟩

theorem ofInputs_inj {S : Set Bytes} (hfree : Digest.CollisionFree S) {t u : Task} {rs ss : List Record}
    (ht : Digest.IsDigest t.configDigest) (hu : Digest.IsDigest u.configDigest)
    (hrs : ∀ r ∈ rs, r.Digested) (hss : ∀ r ∈ ss, r.Digested)
    (hrsS : ∀ b ∈ hashed t rs, b ∈ S) (hssS : ∀ b ∈ hashed u ss, b ∈ S)
    (h : ofInputs t rs = ofInputs u ss) : t.id = u.id ∧ t.configDigest = u.configDigest ∧
      ((counted t rs).map fields).Perm ((counted u ss).map fields) := by
  have hcombined : combinedBytes t.id t.configDigest ((counted t rs).map ofRecord) =
      combinedBytes u.id u.configDigest ((counted u ss).map ofRecord) :=
    hfree (hrsS _ (by simp [hashed])) (hssS _ (by simp [hashed])) h
  obtain ⟨hid, hconfig, hrecords⟩ := combinedBytes_inj ht hu hcombined
  have hdigests : ((counted t rs).map ofRecord).Perm ((counted u ss).map ofRecord) := by
    refine Digest.perm_of_ofUnordered_eq hfree ?_ ?_ (hrsS _ (by simp [hashed]))
      (hssS _ (by simp [hashed])) hrecords
    · simp only [List.mem_map, forall_exists_index, and_imp, forall_apply_eq_imp_iff₂]
      exact fun r _ => Digest.isDigest_ofParts _
    · simp only [List.mem_map, forall_exists_index, and_imp, forall_apply_eq_imp_iff₂]
      exact fun r _ => Digest.isDigest_ofParts _
  refine ⟨hid, hconfig, map_perm_of_map_perm (fun r hr r' hr' heq => ?_) hdigests⟩
  have hbytes : recordBytes r = recordBytes r' :=
    hfree (hrsS _ (by simpa [hashed] using Or.inr (Or.inr ⟨r, hr, rfl⟩)))
      (hssS _ (by simpa [hashed] using Or.inr (Or.inr ⟨r', hr', rfl⟩))) heq
  exact recordBytes_inj (hrs r (List.mem_of_mem_filter hr)) (hss r' (List.mem_of_mem_filter hr')) hbytes

end Fingerprint

theorem filter_flatMap_slots {f : SlotId → List Record} {ss : List SlotId} (hnodup : ss.Nodup)
    (hf : ∀ s, ∀ r ∈ f s, r.slot = s) (s : SlotId) :
    (ss.flatMap f).filter (fun r => r.slot = s) = if s ∈ ss then f s else [] := by
  induction ss with
  | nil => simp
  | cons a ss ih =>
    obtain ⟨ha, hnodup⟩ := List.nodup_cons.mp hnodup
    rw [List.flatMap_cons, List.filter_append, ih hnodup]
    by_cases hs : s = a
    · subst hs
      simp [ha, List.filter_eq_self.mpr fun r hr => decide_eq_true (hf s r hr)]
    · have hnone : (f a).filter (fun r => r.slot = s) = [] :=
        List.filter_eq_nil_iff.mpr fun r hr => by simpa [hf a r hr] using Ne.symm hs
      simp [hs, hnone]

namespace Task

/-- The contents bound to an input of a task, in no order; nothing is bound to any other slot. -/
def contents (t : Task) (recordsIn : SlotId → List Record) (s : SlotId) : Multiset String :=
  if s ∈ t.inputs then ((recordsIn s).map (·.fingerprint) : Multiset String) else 0

variable {t u : Task} {f g : SlotId → List Record}

theorem filter_boundRecords (t : Task) (hf : ∀ s, ∀ r ∈ f s, r.slot = s) (s : SlotId) :
    (t.boundRecords f).filter (fun r => r.slot = s) = if s ∈ t.inputs then f s else [] :=
  filter_flatMap_slots t.inputs_nodup hf s

theorem contents_eq_of_perm
    (hf : ∀ s, ∀ r ∈ f s, r.slot = s) (hg : ∀ s, ∀ r ∈ g s, r.slot = s)
    (h : ((t.boundRecords f).map Fingerprint.fields).Perm ((u.boundRecords g).map Fingerprint.fields)) :
    t.contents f = u.contents g := by
  have hpart : ∀ (v : Task) {k : SlotId → List Record}, (∀ s, ∀ r ∈ k s, r.slot = s) →
      ∀ s, v.contents k s = ((((v.boundRecords k).map Fingerprint.fields).filter
        fun x => x.1 = s).map (·.2.1) : Multiset String) := by
    intro v k hk s
    have hfilter : (v.boundRecords k).filter ((fun x => decide (x.1 = s)) ∘ Fingerprint.fields) =
        if s ∈ v.inputs then k s else [] := filter_boundRecords v hk s
    rw [List.filter_map, List.map_map, hfilter, contents]
    split <;> rfl
  funext s
  rw [hpart t hf, hpart u hg]
  exact Multiset.coe_eq_coe.mpr ((h.filter _).map _)

end Task

end SlotBuild
