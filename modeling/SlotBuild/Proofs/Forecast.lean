import SlotBuild.Forecast
import SlotBuild.Proofs.Evaluation
import SlotBuild.Proofs.Fingerprint
import SlotBuild.Proofs.Graph.Closure
import SlotBuild.Proofs.Graph.Frontier
import SlotBuild.Proofs.Ledger.Upkeep

/-! How a forecast comes about. It judges the tasks one after the other: one that would run leaves
everything downstream of it open, and one that would not run binds the records that it has. -/

namespace SlotBuild

open Ledger (recordsAt)

theorem history_eq_flatMap {t : Task} {l : Ledger} {rs : List Record} (h : t.history? l = some rs) :
    rs = t.outputs.flatMap fun s => l.previousRecords s (some t.id) := by
  unfold Task.history? at h
  split at h
  · simp at h
  · obtain ⟨rss, hrss, rfl⟩ := Option.map_eq_some_iff.mp h
    have hall : List.Forall₂ (fun s xs => l.previousRecords s (some t.id) = xs) t.outputs rss := by
      refine (mapM_eq_some.mp hrss).imp fun s xs hs => ?_
      dsimp only at hs
      split at hs
      · simp at hs
      · exact Option.some.inj hs
    have hmap := List.forall₂_map_left_iff.mpr hall
    rw [List.forall₂_eq_eq_eq] at hmap
    rw [List.flatMap_def, hmap]

/-- The history of a task holds one record for each of its outputs and nothing else. -/
theorem filter_history {t : Task} {l : Ledger} {rs : List Record} (h : t.history? l = some rs)
    (hprev : l.previous.Tidy) (s : SlotId) :
    (s ∈ t.outputs → ∃ r, l.previousRecords s (some t.id) = [r] ∧ rs.filter (fun r => r.slot = s) = [r]) ∧
      (s ∉ t.outputs → rs.filter (fun r => r.slot = s) = []) := by
  have hslot : ∀ s, ∀ r ∈ l.previousRecords s (some t.id), r.slot = s := fun s r hr =>
    hprev.filed s r (mem_previousRecords.mp hr).1
  rw [history_eq_flatMap h, filter_flatMap_slots t.outputs_nodup hslot]
  refine ⟨fun hs => ?_, fun hs => if_neg hs⟩
  obtain ⟨r, hr, hq⟩ := (history?_eq_some h).2.1 s hs
  have hone : l.previousRecords s (some t.id) = [r] := hprev.single.recordsBy_eq hr hq
  exact ⟨r, hone, by rw [if_pos hs, hone]⟩

namespace Forecast

def Progress.fingerprint (p : Progress) (t : Task) : String :=
  Fingerprint.ofInputs t (t.boundRecords p.bound.recordsIn)

/-- What is foreseen of a task of the graph; `bound` is what would be bound after it. -/
structure Judgement where
  index : Nat
  task : Task
  before : Progress
  expectation : Expectation
  bound : Generation

namespace Judgement

def entry (j : Judgement) : Forecast := ⟨j.task.id, j.expectation⟩

def after (g : Graph) (j : Judgement) : Progress where
  bound := j.bound
  unsettled :=
    if j.expectation.willRun then g.downstream j.index ++ j.before.unsettled
    else j.before.unsettled
  entries := j.before.entries ++ [j.entry]

/-- Whether the task would take over a record in `s`. -/
def fills (s : SlotId) (j : Judgement) : Bool := !j.expectation.willRun && j.task.outputs.contains s

theorem fills_iff {s : SlotId} {j : Judgement} :
    j.fills s = true ↔ j.expectation.willRun = false ∧ s ∈ j.task.outputs := by
  simp [fills]

end Judgement

/-- Everything that can be foreseen of a task. -/
inductive Judged (w : World) (l : Ledger) (config : SessionConfig) : Judgement → Prop where
  | waiting {i : Nat} {t : Task} {p : Progress} (unsettled : i ∈ p.unsettled) :
      Judged w l config ⟨i, t, p, .afterDependency, p.bound⟩
  | due {i : Nat} {t : Task} {p : Progress} {reason : RunReason} (settled : i ∉ p.unsettled)
      (due : verdict config t (p.fingerprint t) ⟨l, w⟩ = .error reason) :
      Judged w l config ⟨i, t, p, .execute reason, p.bound⟩
  | saved {i : Nat} {t : Task} {p : Progress} {rs : List Record} (settled : i ∉ p.unsettled)
      (saved : verdict config t (p.fingerprint t) ⟨l, w⟩ = .ok rs) :
      Judged w l config ⟨i, t, p, .upToDate, rs.foldl addRecord p.bound⟩

variable {g : Graph} {w : World} {l : Ledger} {config : SessionConfig} {p start : Progress} {i : Nat}
  {t : Task} {j : Judgement} {log : List Judgement} {s : SlotId}

theorem Judged.expectation_eq_iff (h : Judged w l config j) :
    j.expectation = .afterDependency ↔ j.index ∈ j.before.unsettled := by
  cases h with
  | waiting unsettled => simpa using unsettled
  | due settled _ => simpa using settled
  | saved settled _ => simpa using settled

theorem expect_of_unsettled (ht : g.task? i = some t) (hi : i ∈ p.unsettled) :
    expect g w l config p i = (Judgement.mk i t p .afterDependency p.bound).after g := by
  simp [expect, ht, hi, Judgement.after, Judgement.entry]

/-- What is foreseen of a settled task is the verdict on it, in the world as it is. -/
theorem expect_of_settled (ht : g.task? i = some t) (hi : i ∉ p.unsettled) : expect g w l config p i =
    match verdict config t (p.fingerprint t) ⟨l, w⟩ with
    | .ok rs => (Judgement.mk i t p .upToDate (rs.foldl addRecord p.bound)).after g
    | .error reason => (Judgement.mk i t p (.execute reason) p.bound).after g := by
  by_cases hforce : config.forceRebuildAll = true
  · simp [expect, verdict, ht, hi, hforce, Judgement.after, Judgement.entry]
  · unfold expect verdict Progress.fingerprint
    simp only [ht, hi, hforce, List.contains_eq_mem, decide_false, Bool.false_eq_true, if_false]
    cases reusable w.files w.cwd l t (Fingerprint.ofInputs t (t.boundRecords p.bound.recordsIn)) <;> rfl

theorem exists_judged (w : World) (l : Ledger) (config : SessionConfig) (p : Progress)
    (ht : g.task? i = some t) :
    ∃ j : Judgement, j.index = i ∧ j.task = t ∧ j.before = p ∧ Judged w l config j ∧
      expect g w l config p i = j.after g := by
  by_cases hi : i ∈ p.unsettled
  · exact ⟨_, rfl, rfl, rfl, .waiting hi, expect_of_unsettled ht hi⟩
  · have hexpect : expect g w l config p i = _ := expect_of_settled ht hi
    cases hv : verdict config t (p.fingerprint t) ⟨l, w⟩ with
    | error reason => exact ⟨_, rfl, rfl, rfl, .due hi hv, by rw [hexpect, hv]⟩
    | ok rs => exact ⟨_, rfl, rfl, rfl, .saved hi hv, by rw [hexpect, hv]⟩

/-- A forecast that judges one task after the other, each on what was foreseen before it. -/
inductive Judges (g : Graph) (w : World) (l : Ledger) (config : SessionConfig) (start : Progress) :
    List Judgement → Progress → Prop where
  | nil : Judges g w l config start [] start
  | snoc {log : List Judgement} {j : Judgement} (earlier : Judges g w l config start log j.before)
      (task : g.task? j.index = some j.task) (judged : Judged w l config j) :
      Judges g w l config start (log ++ [j]) (j.after g)

theorem recordsAt_foldl_addRecord (rs : List Record) (k : Generation) (s : SlotId) :
    recordsAt (rs.foldl addRecord k) s = recordsAt k s ++ rs.filter fun r => r.slot = s := by
  induction rs generalizing k with
  | nil => simp
  | cons r rs ih =>
    rw [List.foldl_cons, ih, addRecord, Generation.recordsAt_put]
    by_cases hr : r.slot = s <;> simp [hr, recordsAt]

namespace Judges

theorem extend (h : Judges g w l config start log p) {is : List Nat} (his : ∀ i ∈ is, i < g.size) :
    ∃ more, more.map (·.index) = is ∧
      Judges g w l config start (log ++ more) (is.foldl (expect g w l config) p) := by
  induction is generalizing log p with
  | nil => exact ⟨[], rfl, by simpa using h⟩
  | cons i is ih =>
    obtain ⟨t, ht⟩ := Graph.exists_task? (his i List.mem_cons_self)
    obtain ⟨j, rfl, rfl, rfl, hjudged, hexpect⟩ := exists_judged w l config p ht
    obtain ⟨more, rfl, hmore⟩ := ih (h.snoc ht hjudged) fun i hi => his i (List.mem_cons_of_mem _ hi)
    refine ⟨j :: more, rfl, ?_⟩
    rw [List.foldl_cons, hexpect]
    simpa using hmore

theorem entries_eq (h : Judges g w l config start log p) :
    p.entries = start.entries ++ log.map Judgement.entry := by
  induction h with
  | nil => simp
  | snoc _ _ _ ih => simp [Judgement.after, ih]

theorem exists_before (h : Judges g w l config start log p) (hj : j ∈ log) : ∃ before after,
    log = before ++ j :: after ∧ Judges g w l config start before j.before ∧
      g.task? j.index = some j.task ∧ Judged w l config j := by
  induction h with
  | nil => simp at hj
  | @snoc log k earlier task judged ih =>
    rcases List.mem_append.mp hj with hj | hj
    · obtain ⟨before, after, rfl, hrest⟩ := ih hj
      exact ⟨before, after ++ [k], by simp, hrest⟩
    · obtain rfl := List.mem_singleton.mp hj
      exact ⟨log, [], rfl, earlier, task, judged⟩

/-- Open is what is downstream of a task that would run for a reason of its own. -/
theorem mem_unsettled (h : Judges g w l config start log p) (hstart : start.unsettled = []) :
    i ∈ p.unsettled ↔ ∃ j ∈ log, (∃ reason, j.expectation = .execute reason) ∧
      Relation.TransGen g.Precedes j.index i := by
  induction h generalizing i with
  | nil => simp [hstart]
  | @snoc log j _ _ judged ih =>
    have hsplit : (∃ k ∈ log ++ [j], (∃ reason, k.expectation = .execute reason) ∧
        Relation.TransGen g.Precedes k.index i) ↔ i ∈ j.before.unsettled ∨
          (∃ reason, j.expectation = .execute reason) ∧ Relation.TransGen g.Precedes j.index i := by
      rw [ih]
      simp only [List.mem_append, List.mem_singleton, or_and_right, exists_or, exists_eq_left]
    rw [hsplit]
    cases judged with
    | waiting unsettled =>
      obtain ⟨k, hk, hrun, hbefore⟩ := ih.mp unsettled
      have hdown : Relation.TransGen g.Precedes _ i → i ∈ _ := fun hi =>
        ih.mpr ⟨k, hk, hrun, hbefore.trans hi⟩
      simpa [Judgement.after, Expectation.willRun, Graph.mem_downstream] using hdown
    | due _ _ => simp [Judgement.after, Expectation.willRun, Graph.mem_downstream, or_comm]
    | saved _ _ => simp [Judgement.after, Expectation.willRun]

/-- What would be bound in a slot is what was there at the start and, of each task that would not
run and fills the slot, the record that it has. -/
theorem gathers (h : Judges g w l config start log p) (hprev : l.previous.Tidy) (s : SlotId) :
    ∃ made,
      recordsAt p.bound s = recordsAt start.bound s ++ made ∧
        List.Forall₂ (fun j r => l.previousRecords s (some j.task.id) = [r])
          (log.filter (Judgement.fills s)) made := by
  induction h with
  | nil => exact ⟨[], by simp, .nil⟩
  | @snoc log j _ _ judged ih =>
    obtain ⟨made, hrecords, hmade⟩ := ih
    cases judged with
    | waiting _ => exact ⟨made, hrecords, by simpa [Judgement.fills, Expectation.willRun] using hmade⟩
    | due _ _ => exact ⟨made, hrecords, by simpa [Judgement.fills, Expectation.willRun] using hmade⟩
    | @saved _ t p rs _ saved =>
      obtain ⟨hkeeps, hnothing⟩ := filter_history (verdict_ok saved).2.1 hprev s
      by_cases hs : s ∈ t.outputs
      · obtain ⟨r, hone, hr⟩ := hkeeps hs
        refine ⟨made ++ [r], ?_, ?_⟩
        · rw [Judgement.after, recordsAt_foldl_addRecord, hr, hrecords, List.append_assoc]
        · simpa [Judgement.fills, Expectation.willRun, hs] using List.rel_append hmade (.cons hone .nil)
      · refine ⟨made, ?_, by simpa [Judgement.fills, Expectation.willRun, hs] using hmade⟩
        rw [Judgement.after, recordsAt_foldl_addRecord, hnothing hs, List.append_nil, hrecords]

theorem task_of_mem (h : Judges g w l config start log p) (hj : j ∈ log) : g.task? j.index = some j.task := by
  obtain ⟨before, after, -, -, htask, -⟩ := h.exists_before hj
  exact htask

/-- Nothing that a settled task depends on would run. -/
theorem upToDate_of_settled (h : Judges g w l config start log p) (hstart : start.unsettled = [])
    (hi : i ∉ p.unsettled) (hj : j ∈ log) (hji : Relation.TransGen g.Precedes j.index i) :
    j.expectation = .upToDate := by
  rw [h.mem_unsettled hstart] at hi
  obtain ⟨before, after, rfl, hbefore, -, hjudged⟩ := h.exists_before hj
  cases hexpect : j.expectation with
  | upToDate => rfl
  | execute reason => exact absurd ⟨j, hj, ⟨reason, hexpect⟩, hji⟩ hi
  | afterDependency =>
    have hwaits := hjudged.expectation_eq_iff.mp hexpect
    obtain ⟨k, hk, hrun, hkj⟩ := (hbefore.mem_unsettled hstart).mp hwaits
    exact absurd ⟨k, List.mem_append_left _ hk, hrun, hkj.trans hji⟩ hi

theorem fillers_perm {c : Catalog} (h : Judges g w l config start log p) (hg : g.Valid c)
    (hnodup : (log.map (·.index)).Nodup)
    (hall : ∀ i ∈ g.producersOf s, ∃ j ∈ log, j.index = i ∧ j.expectation = .upToDate) :
    ((log.filter (Judgement.fills s)).map (·.index)).Perm (g.producersOf s) := by
  refine (List.perm_ext_iff_of_nodup (hnodup.sublist (List.filter_sublist.map _))
    (hg.increasing s).nodup).mpr fun i => ?_
  rw [List.mem_map]
  constructor
  · rintro ⟨j, hj, rfl⟩
    obtain ⟨hj, hfills⟩ := List.mem_filter.mp hj
    exact (hg.mem_producersOf s _).mpr ⟨j.task, h.task_of_mem hj, (Judgement.fills_iff.mp hfills).2⟩
  · intro hi
    obtain ⟨j, hj, rfl, hexpect⟩ := hall i hi
    obtain ⟨t, ht, hs⟩ := (hg.mem_producersOf s _).mp hi
    obtain rfl : j.task = t := Option.some.inj ((h.task_of_mem hj).symm.trans ht)
    exact ⟨j, List.mem_filter.mpr ⟨hj, Judgement.fills_iff.mpr ⟨by rw [hexpect]; rfl, hs⟩⟩, rfl⟩

/-- If no producer of a slot would run, the slot holds what it held at the start and one record of
each producer. -/
theorem exists_gathered {c : Catalog} (h : Judges g w l config start log p) (hg : g.Valid c)
    (hprev : l.previous.Tidy) (hnodup : (log.map (·.index)).Nodup)
    (hall : ∀ i ∈ g.producersOf s, ∃ j ∈ log, j.index = i ∧ j.expectation = .upToDate) :
    ∃ made, (recordsAt p.bound s).Perm (recordsAt start.bound s ++ made) ∧
      List.Forall₂ (fun i r => ∃ j ∈ log, j.index = i ∧ l.previousRecords s (some j.task.id) = [r])
        (g.producersOf s) made := by
  obtain ⟨made, hrecords, hmade⟩ := h.gathers hprev s
  have hmade' : List.Forall₂ (fun i r => ∃ j ∈ log, j.index = i ∧ l.previousRecords s (some j.task.id) = [r])
      ((log.filter (Judgement.fills s)).map (·.index)) made := by
    have hboth := (List.forall₂_and_left _ _).mpr ⟨fun j hj => List.mem_of_mem_filter hj, hmade⟩
    refine List.forall₂_map_left_iff.mpr (hboth.imp ?_)
    rintro j r ⟨hj, hr⟩
    exact ⟨j, hj, rfl, hr⟩
  obtain ⟨made', hmade', hperm⟩ := List.perm_comp_forall₂ (h.fillers_perm hg hnodup hall).symm hmade'
  refine ⟨made', ?_, hmade'⟩
  rw [hrecords]
  exact hperm.symm.append_left _

end Judges

end Forecast

end SlotBuild
