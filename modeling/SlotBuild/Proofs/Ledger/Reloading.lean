import SlotBuild.Proofs.FileTree.Replacement
import SlotBuild.Proofs.Ledger.Upkeep

/-! A ledger that was flushed and is loaded again: the generation that it had written is the
previous one of the new ledger, whatever text and numbers stand in its records. -/

namespace SlotBuild.Ledger

variable {faults : Faults} {l : Ledger} {g : Generation} {files left : FileTree} {cwd : Key} {path : Path}

theorem successor_toNat (n : UInt64) : (successor n).toNat = min (n.toNat + 1) (2 ^ 64 - 1) := by
  have hlt := n.toNat_lt
  have hsize : UInt64.size = 2 ^ 64 := rfl
  by_cases hfits : n.toNat + 1 < UInt64.size
  · rw [successor, if_pos hfits, UInt64.toNat_add, UInt64.toNat_one, Nat.mod_eq_of_lt hfits]
    omega
  · rw [successor, if_neg hfits]
    omega

/-- A ledger that follows a generation and has nothing bound to it. -/
structure Continues (g : Generation) (l : Ledger) : Prop where
  previous : l.previous = g
  fresh : l.current.records = []
  number : l.current.number.toNat = min (g.number.toNat + 1) (2 ^ 64 - 1)

theorem after_continues (path : Path) (g : Generation) : (after path g).Continues g :=
  ⟨rfl, rfl, successor_toNat g.number⟩

theorem load_continues (hread : files.read cwd path = .ok g.toBytes) :
    ∃ l, Ledger.load files cwd path = .ok l ∧ l.path = path ∧ l.Continues g :=
  ⟨.after path g, load_of_read hread, rfl, after_continues path g⟩

theorem read_of_flushed (h : l.flush faults files cwd = (.ok (), left))
    (hplain : (files.ensureParent cwd l.path).2.Unlinked cwd (FileTree.temporaryFor l.path))
    (hdirect : (files.ensureParent cwd l.path).2.Direct cwd l.path) :
    left.read cwd l.path = .ok l.current.toBytes := by
  unfold flush at h
  cases hreplaced : files.replaceFile faults cwd l.path l.current.toBytes with
  | mk result written =>
    rw [hreplaced] at h
    cases result with
    | error e => simp at h
    | ok _ =>
      obtain rfl := (Prod.mk.inj h).2
      exact FileTree.read_of_replaced hreplaced hplain fun b hb _ => hdirect b hb

/-- The bytes of a generation are read back as that generation, whichever it is. So a path that
reads as what a ledger has flushed is loaded with that as the previous generation, an empty current
one and the number behind it; and a flush to a plain path leaves such a path. -/
theorem load_of_flushed (l : Ledger) :
    Generation.ofBytes? l.current.toBytes = some l.current ∧
    (∀ files cwd path, FileTree.read files cwd path = .ok l.current.toBytes →
      ∃ l', Ledger.load files cwd path = .ok l' ∧ l'.path = path ∧ l'.Continues l.current) ∧
    ∀ faults files cwd left, l.flush faults files cwd = (.ok (), left) →
      (files.ensureParent cwd l.path).2.Unlinked cwd (FileTree.temporaryFor l.path) →
      (files.ensureParent cwd l.path).2.Direct cwd l.path →
      ∃ l', Ledger.load left cwd l.path = .ok l' ∧ l'.path = l.path ∧ l'.Continues l.current :=
  ⟨Generation.ofBytes?_toBytes _, fun _ _ _ hread => load_continues hread,
    fun _ _ _ _ hflush hplain hdirect => load_continues (read_of_flushed hflush hplain hdirect)⟩

namespace Cabinet

/-- The last generation that there is, with text of all kinds. -/
def last : Ledger where
  path := ⟨"état.json"⟩
  previous := .empty
  current := ⟨18446744073709551615, [("\x01é",
    [⟨"\x01é", [⟨"x\ty"⟩, ⟨"λ"⟩], "", none, some "/", 18446744073709551615⟩,
     ⟨"\x01é", [], "f", some "", none, 0⟩]), ("a \"b\"\\\n", [])], by decide +kernel⟩

/-- The number of the last generation stays as it is. -/
theorem last_load_of_flushed : ∃ left l, last.flush .none .empty [] = (.ok (), left) ∧
    Ledger.load left [] last.path = .ok l ∧ l.previous = last.current ∧ l.current.records = [] ∧
    l.current.number = last.current.number := by
  obtain ⟨left, hflush⟩ : ∃ left, last.flush .none .empty [] = (.ok (), left) := ⟨_, rfl⟩
  have hground : (FileTree.empty.ensureParent [] last.path).2 = .empty := rfl
  have htemporary : FileTree.empty.locate [] false (FileTree.temporaryFor last.path) =
      .ok ⟨["état.json.tmp"], true, false⟩ := by decide +kernel
  have hstate : FileTree.empty.locate [] false last.path = .ok ⟨["état.json"], true, false⟩ := by
    decide +kernel
  have hplain := FileTree.unlinked_of_locate htemporary (by simp [FileTree.lookup, FileTree.empty])
  have hdirect := FileTree.direct_of_locate hstate (by exact hstate)
  obtain ⟨l, hload, -, hprevious, hfresh, hnumber⟩ := (load_of_flushed last).2.2
    .none .empty [] left hflush (hground ▸ hplain) (hground ▸ hdirect)
  exact ⟨left, l, hflush, hload, hprevious, hfresh, UInt64.toNat_inj.mp hnumber⟩

end Cabinet

end SlotBuild.Ledger
