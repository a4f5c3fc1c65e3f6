import SlotBuild.Proofs.Ledger.Inheritance
import SlotBuild.Proofs.Record.StateFile

/-! The state of a ledger over any number of sessions: in each generation every record stands under
the slot that it names and no producer has two records in a slot. -/

namespace SlotBuild

open Ledger (recordsAt bound)

namespace Generation

/-- What a producer has in a slot; `none` stands for supplies. -/
def recordsBy (g : Generation) (s : SlotId) (q : Option TaskId) : List Record :=
  (g.recordsIn s).filter fun r => r.producer = q

structure Tidy (g : Generation) : Prop where
  filed : g.Filed
  single : g.Single

variable {g : Generation} {s : SlotId} {q : Option TaskId} {r : Record}

theorem mem_recordsBy : r ∈ g.recordsBy s q ↔ r ∈ recordsAt g s ∧ r.producer = q := by
  simp [recordsBy, mem_recordsIn]

theorem recordsBy_eq_nil : g.recordsBy s q = [] ↔ ∀ r ∈ recordsAt g s, r.producer ≠ q := by
  simp [recordsBy, List.filter_eq_nil_iff, mem_recordsIn]

theorem Single.recordsBy_eq (h : g.Single) (hr : r ∈ recordsAt g s) (hq : r.producer = q) :
    g.recordsBy s q = [r] := by
  subst hq
  exact h.filter_eq hr

theorem Single.recordsBy_eq_filter (h : g.Single) :
    g.recordsBy s q = (recordsAt g s).filter fun r => r.producer = q := by
  have hperm : (g.recordsBy s q).Perm ((recordsAt g s).filter fun r => r.producer = q) :=
    (g.recordsIn_perm s).filter _
  by_cases hnone : ∀ r ∈ recordsAt g s, r.producer ≠ q
  · rw [recordsBy_eq_nil.mpr hnone] at hperm ⊢
    exact (List.nil_perm.mp hperm).symm
  · push Not at hnone
    obtain ⟨r, hr, hq⟩ := hnone
    rw [h.recordsBy_eq hr hq] at hperm ⊢
    exact List.singleton_perm.mp hperm

theorem Single.eq_of_producer (h : g.Single) {r' : Record} (hr : r ∈ recordsAt g s)
    (hr' : r' ∈ recordsAt g s) (hq : r.producer = r'.producer) : r = r' :=
  List.inj_on_of_nodup_map (h s) hr hr' hq

theorem empty_tidy : Tidy .empty :=
  ⟨by simp [Filed], by simp [Single]⟩

end Generation

theorem FileTree.isThere_of_read {files : FileTree} {cwd : Key} {path : Path} {content : Bytes}
    (h : files.read cwd path = .ok content) : files.isThere cwd path = true := by
  obtain ⟨found, hfound, -⟩ := bind_eq_ok.mp h
  simp [isThere, stat?, hfound]

namespace Ledger

theorem load_eq_after {files : FileTree} {cwd : Key} {path : Path} {l : Ledger}
    (h : Ledger.load files cwd path = .ok l) : ∃ g, l = Ledger.after path g := by
  unfold Ledger.load at h
  by_cases hthere : files.isThere cwd path = true
  · rw [if_neg (by simp [hthere])] at h
    cases hread : files.read cwd path with
    | error e => simp [hread] at h
    | ok content =>
      cases hg : Generation.ofBytes? content with
      | none => simp [hread, hg] at h
      | some g => exact ⟨g, by simpa [hread, hg, eq_comm] using h⟩
  · rw [if_pos (by simpa using hthere)] at h
    exact ⟨.empty, (Except.ok.inj h).symm⟩

theorem load_of_read {files : FileTree} {cwd : Key} {path : Path} {g : Generation}
    (hread : files.read cwd path = .ok g.toBytes) :
    Ledger.load files cwd path = .ok (.after path g) := by
  simp [Ledger.load, FileTree.isThere_of_read hread, hread, Generation.ofBytes?_toBytes]

/-- Every ledger that there is: it starts empty or from what another one has saved, and records are
bound to it or taken over. -/
inductive Kept : Ledger → Prop where
  | empty (path : Path) : Kept (.empty path)
  | load {files : FileTree} {cwd : Key} {path : Path} {l l' : Ledger} (before : Kept l)
      (saved : files.read cwd path = .ok l.current.toBytes)
      (loaded : Ledger.load files cwd path = .ok l') : Kept l'
  | record {l l' : Ledger} {slot : Slot} {r : Record} (before : Kept l)
      (bound : l.record slot r = .ok l') : Kept l'
  | carry {l : Ledger} (before : Kept l) (c : Catalog) (q : TaskId) : Kept (l.carryForward c q).2

/-- Nothing was bound yet to the ledger since it was loaded; there was no file, or one that another
ledger has saved. -/
def Opened (l : Ledger) : Prop :=
  (∃ path, l = .empty path) ∨ ∃ files cwd path l₀, Kept l₀ ∧
    files.read cwd path = .ok l₀.current.toBytes ∧ Ledger.load files cwd path = .ok l

variable {l l' : Ledger}

theorem record_ok {slot : Slot} {r : Record} (h : l.record slot r = .ok l') :
    r.slot = slot.id ∧ l' = l.withRecords slot.id (bound slot r (recordsAt l.current slot.id)) := by
  by_cases hslot : r.slot = slot.id
  · rw [record, if_neg (not_not_intro hslot)] at h
    exact ⟨hslot, (Except.ok.inj h).symm⟩
  · rw [record, if_pos hslot] at h
    cases h

theorem record_tidy {slot : Slot} {r : Record} (h : l.current.Tidy) (hr : l.record slot r = .ok l') :
    l'.current.Tidy := by
  obtain ⟨hslot, rfl⟩ := record_ok hr
  refine ⟨fun s x hx => ?_, fun s => ?_⟩
  · rw [recordsAt_withRecords] at hx
    by_cases hs : slot.id = s
    · rw [if_pos hs] at hx
      rcases mem_bound hx with rfl | hx
      · exact hslot.trans hs
      · exact hs ▸ h.filed slot.id x hx
    · rw [if_neg hs] at hx
      exact h.filed s x hx
  · rw [recordsAt_withRecords]
    by_cases hs : slot.id = s
    · rw [if_pos hs]
      exact bound_single (h.single slot.id)
    · rw [if_neg hs]
      exact h.single s

theorem Extends.tidy {P : TaskId → Prop} (hx : Extends P l l') (h : l.current.Tidy)
    (hprev : l.previous.Filed) : l'.current.Tidy := by
  refine ⟨fun s r hr => ?_, hx.single h.single⟩
  obtain ⟨extra, heq, hextra⟩ := hx.records s
  rw [heq] at hr
  rcases List.mem_append.mp hr with hr | hr
  · exact h.filed s r hr
  · exact hprev s r (hextra r hr).1

theorem eq_after_of_saved {files : FileTree} {cwd : Key} {path : Path}
    (saved : files.read cwd path = .ok l.current.toBytes)
    (loaded : Ledger.load files cwd path = .ok l') : l' = .after path l.current := by
  rw [load_of_read saved] at loaded
  exact (Except.ok.inj loaded).symm

theorem Kept.tidy (h : l.Kept) : l.current.Tidy ∧ l.previous.Tidy := by
  have hafter : ∀ path {g}, Generation.Tidy g → (after path g).current.Tidy ∧ (after path g).previous.Tidy :=
    fun path g hg => ⟨⟨fun s r hr => by simp at hr, fun s => by simp⟩, hg⟩
  induction h with
  | empty path => exact hafter path Generation.empty_tidy
  | @load _ _ path l₀ _ _ saved loaded ih =>
    rw [eq_after_of_saved saved loaded]
    exact hafter path ih.1
  | record _ bound ih =>
    obtain ⟨-, rfl⟩ := record_ok bound
    exact ⟨record_tidy ih.1 bound, ih.2⟩
  | @carry l _ c q ih =>
    have hx := carryForward_extends l c q
    exact ⟨hx.tidy ih.1 ih.2.filed, hx.previous ▸ ih.2⟩

theorem Opened.kept (h : l.Opened) : l.Kept := by
  rcases h with ⟨path, rfl⟩ | ⟨files, cwd, path, l₀, hkept, saved, loaded⟩
  · exact .empty path
  · exact .load hkept saved loaded

theorem Opened.exists_after (h : l.Opened) : ∃ path g, g.Tidy ∧ l = .after path g := by
  have htidy := h.kept.tidy.2
  rcases h with ⟨path, rfl⟩ | ⟨files, cwd, path, l₀, -, -, loaded⟩
  · exact ⟨path, .empty, htidy, rfl⟩
  · obtain ⟨g, rfl⟩ := load_eq_after loaded
    exact ⟨path, g, htidy, rfl⟩

end Ledger

theorem bindAll_kept {c : Catalog} {l : Ledger} (h : l.Kept) (rs : List Record) :
    (bindAll c l rs).2.Kept := by
  induction rs generalizing l with
  | nil => exact h
  | cons r rs ih =>
    cases hb : bind c l r with
    | error e =>
      rw [bindAll, hb]
      exact h
    | ok l' =>
      rw [bindAll, hb]
      obtain ⟨slot, -, hrecord⟩ := bind_eq_ok.mp hb
      exact ih (.record h hrecord)

theorem Ledger.Kept.carryForwardAll {l : Ledger} (h : l.Kept) (c : Catalog)
    (producers : List TaskId) : (l.carryForwardAll c producers).Kept := by
  unfold Ledger.carryForwardAll
  induction producers generalizing l with
  | nil => exact h
  | cons q producers ih => exact ih (.carry h c q)

end SlotBuild
