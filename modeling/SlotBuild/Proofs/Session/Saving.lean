import SlotBuild.Proofs.FileTree.Replacement
import SlotBuild.Proofs.Graph.Actions
import SlotBuild.Proofs.Session.World

/-! What a session leaves on file. An error comes before the first action and changes nothing.
Otherwise the new generation takes the place of the one before, or a problem is reported and the
file reads as the tasks have left it. -/

namespace SlotBuild

open Coordinator

/-- What a path reads as in a world. -/
def World.read (w : World) (p : Path) : Except OsError Bytes := w.files.read w.cwd p

namespace Ledger

/-- The files of a world once the directories for the ledger have been made. -/
def ground (l : Ledger) (w : World) : FileTree := (w.files.ensureParent w.cwd l.path).2

/-- The state file is not where its own temporary is, or nothing goes wrong outside of the tree once
the temporary is opened. -/
def Guarded (l : Ledger) (w : World) : Prop :=
  (l.ground w).Apart w.cwd l.path ∨ w.machine.faults.Spares (FileTree.temporaryFor l.path) l.path

/-- What comes of saving the ledger in the world `before`. -/
structure Saves (l : Ledger) (before : World) (problem : Option LedgerError) (after : World) : Prop where
  stored : problem = none → (l.ground before).Unlinked before.cwd (FileTree.temporaryFor l.path) →
    (l.ground before).Direct before.cwd l.path → after.read l.path = .ok l.current.toBytes
  kept : problem.isSome → l.Guarded before → ∀ content,
    before.read l.path = .ok content → after.read l.path = .ok content
  absent : problem.isSome → l.Guarded before → before.files.HasParent before.cwd l.path → ∀ content,
    after.read l.path = .ok content → before.read l.path = .ok content
  rest : after = { before with files := after.files }

theorem save_saves (site : Site) :
    site.ledger.Saves site.world (save site).1 (save site).2.world := by
  unfold save flush
  cases h : site.world.files.replaceFile site.world.machine.faults site.world.cwd site.ledger.path
      site.ledger.current.toBytes with
  | mk result files =>
    cases result with
    | ok _ =>
      exact ⟨fun _ hplain hdirect => FileTree.read_of_replaced h hplain fun b hb _ => hdirect b hb,
        by simp, by simp, rfl⟩
    | error e =>
      exact ⟨by simp, fun _ hguarded _ hread => FileTree.read_of_not_replaced h hguarded hread,
        fun _ hguarded hparent _ hread => FileTree.read_before_not_replaced h hguarded hparent hread,
        rfl⟩

end Ledger

theorem takeSupplies_error {c : Catalog} {supplies : List Supply} {site left : Site} {e : SessionError}
    (h : takeSupplies c supplies site = (.error e, left)) : left.world = site.world := by
  unfold takeSupplies at h
  cases hrecords : supplyRecords site.world supplies with
  | error e =>
    rw [hrecords] at h
    rw [← (Prod.mk.inj h).2]
  | ok rs =>
    rw [hrecords] at h
    dsimp only at h
    cases hbound : bindAll c site.ledger rs with
    | mk result l =>
      rw [hbound] at h
      cases result with
      | error e => rw [← (Prod.mk.inj h).2]
      | ok _ => simp at h

/-- A run of a graph that does not come to its end has not run anything. -/
theorem runGraph_error {p : Plan} {supplies : List Supply} {threads : Option String}
    {moves : List Move} {site left : Site} {e : SessionError}
    (h : runGraph p supplies threads moves site = (.error e, left)) : left.world = site.world ∧
      ∀ act moves', runGraph { p with graph := p.graph.acting act } supplies threads moves' site =
        (.error e, left) := by
  unfold runGraph at h ⊢
  cases hsupplies : takeSupplies p.catalog supplies site with
  | mk result s =>
    rw [hsupplies] at h
    cases result with
    | error e' =>
      obtain ⟨he, rfl⟩ := Prod.mk.inj h
      exact ⟨takeSupplies_error hsupplies, fun act moves' => by simp only [hsupplies, he]⟩
    | ok _ =>
      cases threads with
      | none => simp at h
      | some message =>
        obtain ⟨he, rfl⟩ := Prod.mk.inj h
        obtain ⟨rs, l, -, -, hbegun⟩ := takeSupplies_ok hsupplies
        exact ⟨by rw [hbegun], fun act moves' => by simp only [hsupplies, he]⟩

namespace Session

variable {x : Session} {res : SessionResult} {left : Site}

/-- A session that comes to its end saves its ledger in the world that its tasks have left. -/
structure Persists (x : Session) (res : SessionResult) (left : Site) : Prop where
  path : left.ledger.path = x.site.ledger.path
  saves : left.ledger.Saves x.ended.site.world res.storeError left.world
  untouched :
    (∀ e ∈ x.evaluations,
      (e.after x.plan).world.read left.ledger.path = e.site.world.read left.ledger.path) →
    x.ended.site.world.read left.ledger.path = x.site.world.read left.ledger.path

theorem final_path (h : x.result.1 = .ok res) : x.final.path = x.site.ledger.path := by
  obtain ⟨rs, l, -, hbound, hbegun⟩ := takeSupplies_ok (begun_of_ok h)
  have hsupplied : x.begun.ledger.path = x.site.ledger.path := by
    rw [hbegun, show l = (bindAll x.plan.catalog x.site.ledger rs).2 by rw [hbound], bindAll_path]
  rw [(final_extends h).path, x.passes.path, hsupplied]

/-- Running the tasks of a graph ends with saving the ledger. -/
theorem exists_saved (p : Plan) (moves : List Move) (site : Site) : ∃ saved : Site,
    saved.world = (complete p site moves).site.world ∧
      save saved = ((runTasks p moves site).1.storeError, (runTasks p moves site).2) := by
  dsimp only [runTasks]
  generalize complete p site moves = done
  refine ⟨⟨done.site.ledger.carryForwardAll p.catalog (unattempted p.graph
    done.site.ledger.previous (done.reports p.graph)), done.site.world⟩, rfl, ?_⟩
  rw [Prod.mk.eta]

theorem persists (h : x.result = (.ok res, left)) : x.Persists res left := by
  have hok : x.result.1 = .ok res := by rw [h]
  have heq := result_eq_runTasks (begun_of_ok hok)
  rw [h] at heq
  obtain ⟨hres, hleft⟩ := Prod.mk.inj heq
  obtain ⟨saved, hworld, hsave⟩ := exists_saved x.plan x.moves x.begun
  rw [← Except.ok.inj hres, ← hleft] at hsave
  have hledger : left.ledger = saved.ledger := by
    rw [← save_ledger saved, hsave]
  refine ⟨?_, ?_, fun hsame => ?_⟩
  · rw [← final_path hok, final, h]
  · have hsaves := Ledger.save_saves saved
    rwa [hsave, hworld, ← hledger] at hsaves
  · rw [ended_eq_run, ← begun_world hok]
    exact run_unchanged (f := fun w => w.read left.ledger.path) (fun _ => rfl) hsame

end Session

namespace Desk

/-- Each write is cut off after so many octets. -/
def cutting (n : Nat) : Faults :=
  ⟨fun _ _ => some (.cut n (.other 28 "No space left on device")), fun _ _ => none⟩

/-- No file may be renamed. -/
def fixing : Faults := ⟨fun _ _ => none, fun _ _ => some .permissionDenied⟩

def text (s : String) : Entry := .file (Bytes.ofString s)

def site (faults : Faults) (path : Path) (files : FileTree) : Site :=
  ⟨.empty path, ⟨files, [], [], 0, false, { Machine.bare with faults := faults }⟩⟩

section smelting

def catalog : Catalog := ⟨[.single "ore" .file .sources, .single "ingot" .file .outputs]⟩

def smelt : Task :=
  ((Task.make "smelt" fun _ w => (.reported [("ingot", [⟨"ingot"⟩])],
    { w with files := w.files.put ["ingot"] (text "iron") })).withInput "ore").withOutput "ingot"

def supplies : List Supply := [⟨"ore", [⟨"ore"⟩]⟩]

def files : FileTree := ⟨[(["ore"], text "rock"), (["state.json"], text "old")]⟩

def smelted : FileTree := files.put ["ingot"] (text "iron")

/-- What is smelted from the ore that is supplied, where some things may go wrong. -/
def build (threads : Option String) (faults : Faults) : Except SessionError SessionResult × Site :=
  runBuild catalog [smelt] supplies ⟨1, false, false⟩ threads [] (site faults ⟨"state.json"⟩ files)

/-- Whether all tasks are executed and whether a problem is reported at the end. -/
def reported (x : Except SessionError SessionResult × Site) : Option (Bool × Bool) :=
  match x.1 with
  | .error _ => none
  | .ok res => some (res.reports.all fun r => SessionResult.isExecuted r.outcome, res.storeError.isSome)

theorem exists_of_reported {x : Except SessionError SessionResult × Site} {executed problem : Bool}
    (h : reported x = some (executed, problem)) : ∃ res left, x = (.ok res, left) ∧
      (res.reports.all fun r => SessionResult.isExecuted r.outcome) = executed ∧
        res.storeError.isSome = problem := by
  obtain ⟨result, left⟩ := x
  cases result with
  | error e => cases h
  | ok res =>
    obtain ⟨hexecuted, hproblem⟩ := Prod.mk.inj (Option.some.inj h)
    exact ⟨res, left, rfl, hexecuted, hproblem⟩

theorem exists_of_not_reported {x : Except SessionError SessionResult × Site}
    (h : reported x = none) : ∃ e left, x = (.error e, left) := by
  obtain ⟨result, left⟩ := x
  cases result with
  | error e => exact ⟨e, left, rfl⟩
  | ok res => cases h

/-- What the task leaves for the ledger to be saved in. -/
def ended (faults : Faults) (g : Graph) : World :=
  (Session.mk ⟨catalog, g, ⟨1, false, false⟩⟩ supplies [] (site faults ⟨"state.json"⟩ files)).ended.site.world

/-- The task leaves its ingot, whatever goes wrong with the ledger. -/
def leavesIngot (faults : Faults) : Bool :=
  match Graph.build catalog ["ore"] [smelt] with
  | .error _ => false
  | .ok g => (ended faults g).files = smelted ∧ (ended faults g).cwd = []

theorem locate_smelted (through : Bool) :
    smelted.locate [] through ⟨"state.json"⟩ = .ok ⟨["state.json"], true, false⟩ ∧
      smelted.locate [] through (FileTree.temporaryFor ⟨"state.json"⟩) =
        .ok ⟨["state.json.tmp"], true, false⟩ := by
  cases through <;> decide

/-- A place where a ledger can be saved over an old one. -/
structure Stands (w : World) (l : Ledger) : Prop where
  unlinked : (l.ground w).Unlinked w.cwd (FileTree.temporaryFor l.path)
  direct : (l.ground w).Direct w.cwd l.path
  guarded : l.Guarded w
  read : w.read l.path = .ok (Bytes.ofString "old")

theorem stands_ended {faults : Faults} {g : Graph} {l : Ledger} (hleaves : leavesIngot faults = true)
    (hg : Graph.build catalog ["ore"] [smelt] = .ok g) (hpath : l.path = ⟨"state.json"⟩) :
    Stands (ended faults g) l := by
  rw [leavesIngot, hg] at hleaves
  obtain ⟨hfiles, hcwd⟩ := of_decide_eq_true hleaves
  have hground : l.ground (ended faults g) = smelted := by
    rw [Ledger.ground, hfiles, hcwd, hpath]
    decide
  obtain ⟨hstate, htemporary⟩ := locate_smelted false
  obtain ⟨hstate', htemporary'⟩ := locate_smelted true
  refine ⟨?_, ?_, Or.inl ?_, ?_⟩
  · rw [hground, hcwd, hpath]
    exact FileTree.unlinked_of_locate htemporary
      (by simp [show smelted.lookup ["state.json.tmp"] = none by decide])
  · rw [hground, hcwd, hpath]
    exact FileTree.direct_of_locate hstate (by decide)
  · rw [hground, hcwd, hpath]
    exact FileTree.apart_of_locate hstate' htemporary' (by decide)
  · rw [World.read, hfiles, hcwd, hpath]
    decide

end smelting

/-- A task that writes a file of its own accord. -/
def scribble (name : String) : Task :=
  .make "scribble" fun _ w => (.reported [], { w with files := w.files.put [name] (text "") })

/-- Whether a session reports a problem at its end, and what the path reads as before and after it. -/
def shown (faults : Faults) (path : Path) (tasks : List Task) (files : FileTree) :
    Option (Bool × Except OsError Bytes × Except OsError Bytes) :=
  match runBuild ⟨[]⟩ tasks [] ⟨1, false, false⟩ none [] (site faults path files) with
  | (.error _, _) => none
  | (.ok res, left) => some (res.storeError.isSome, files.read [] path, left.world.read path)

end Desk

end SlotBuild
