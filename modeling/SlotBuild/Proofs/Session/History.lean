import SlotBuild.Proofs.Session.Run

/-! Sessions over one state file. Whatever happens to graphs, catalogs, sources and outputs between
them, and however they end, the records that a producer has in a generation all come from one
execution of its action, and a task is only passed as up to date on the word of such an execution. -/

namespace SlotBuild

open Ledger (recordsAt)

/-- The session has loaded what one of the sessions before it has saved, or has found no file. -/
def Session.Loads (x : Session) (past : List Session) : Prop :=
  ∃ files cwd path, Ledger.load files cwd path = .ok x.site.ledger ∧
    (files.isThere cwd path = false ∨ ∃ y ∈ past, (∃ res, y.result.1 = .ok res) ∧
      files.read cwd path = .ok y.final.current.toBytes)

/-- Sessions over one state file, the latest first, that starts absent. -/
inductive History : List Session → Prop where
  | nil : History []
  | cons {x : Session} {past : List Session} (before : History past)
      (graph : ∃ c supplies, x.plan.graph.BuiltFrom c supplies) (loads : x.Loads past) : History (x :: past)

/-- The records of each producer are among those that one execution has published. -/
structure Generation.Traced (past : List Session) (g : Generation) : Prop where
  filed : g.Filed
  single : g.Single
  origin : ∀ q s r, r ∈ recordsAt g s → r.producer = some q → ∃ y ∈ past, ∃ d, y.Executed d ∧
    d.task.id = q ∧ ∀ s' r', r' ∈ recordsAt g s' → r'.producer = some q → r' ∈ d.published y.plan

namespace Generation

variable {past : List Session} {g : Generation}

theorem empty_traced (past : List Session) : Traced past .empty :=
  ⟨by simp [Filed], by simp [Single], by simp⟩

theorem Traced.mono {more : List Session} (h : g.Traced past) (hsub : past ⊆ more) : g.Traced more := by
  refine ⟨h.filed, h.single, fun q s r hr hq => ?_⟩
  obtain ⟨y, hy, hd⟩ := h.origin q s r hr hq
  exact ⟨y, hsub hy, hd⟩

end Generation

namespace Session

variable {x : Session} {past : List Session} {res : SessionResult}

theorem Loads.previous (h : x.Loads past) :
    x.Fresh ∧ (x.site.ledger.previous = .empty ∨
      ∃ y ∈ past, (∃ res, y.result.1 = .ok res) ∧ x.site.ledger.previous = y.final.current) := by
  obtain ⟨files, cwd, path, hload, hfrom⟩ := h
  rcases hfrom with hnone | ⟨y, hy, ⟨res, hres⟩, hread⟩
  · simp only [Ledger.load, hnone, Bool.not_false, if_true, Except.ok.injEq] at hload
    rw [Fresh, ← hload]
    exact ⟨rfl, Or.inl rfl⟩
  · rw [Fresh, Ledger.eq_after_of_saved hread hload]
    exact ⟨rfl, Or.inr ⟨y, hy, ⟨res, hres⟩, rfl⟩⟩

theorem final_traced {c : Catalog} (hg : x.plan.graph.Valid c) (hfresh : x.Fresh)
    (h : x.result.1 = .ok res) (hprev : x.site.ledger.previous.Traced past) :
    x.final.current.Traced (x :: past) := by
  refine ⟨final_filed hfresh h hprev.filed, final_single hfresh h, fun q s r hr hq => ?_⟩
  have hmem := fun s r => mem_final (s := s) (r := r) hfresh h
  by_cases hexec : ∃ e, x.Executed e ∧ e.task.id = q
  · obtain ⟨e, ⟨-, he, reason, ho⟩, hid⟩ := hexec
    refine ⟨x, List.mem_cons_self, e, ⟨⟨res, h⟩, he, reason, ho⟩, hid, fun s' r' hr' hq' => ?_⟩
    rcases hmem s' r' hr' with ⟨hnone | ⟨e', he', hpub⟩, -⟩ | ⟨-, q', hq'', hr''⟩
    · simp [hnone] at hq'
    · have hid' := published_producer hpub
      have : e'.task.id = e.task.id := by
        rw [hid]
        exact Option.some.inj (hid'.symm.trans hq')
      rwa [← evaluation_unique hg he' he this]
    · obtain rfl : q' = q := Option.some.inj (hr''.symm.trans hq')
      have hun := notMem_unattempted hg h he (by rw [ho]; rfl) x.site.ledger.previous
      exact absurd (hid ▸ hq'') hun
  · have hold : ∀ s' r', r' ∈ recordsAt x.final.current s' → r'.producer = some q →
        ∃ s'', r' ∈ recordsAt x.site.ledger.previous s'' := by
      intro s' r' hr' hq'
      rcases hmem s' r' hr' with ⟨hnone | ⟨e, he, hpub⟩, -⟩ | ⟨hold, -⟩
      · simp [hnone] at hq'
      · have hid : e.task.id = q := Option.some.inj ((published_producer hpub).symm.trans hq')
        obtain ⟨s'', -, hs'', -⟩ := (e.evaluated x.plan).published_old
          (fun reason ho => hexec ⟨e, ⟨⟨res, h⟩, he, reason, ho⟩, hid⟩) hpub
        rw [site_previous h he] at hs''
        exact ⟨s'', hs''⟩
      · exact ⟨s', hold⟩
    obtain ⟨s₀, hr₀⟩ := hold s r hr hq
    obtain ⟨y, hy, d, hd, hid, hall⟩ := hprev.origin q s₀ r hr₀ hq
    refine ⟨y, List.mem_cons_of_mem x hy, d, hd, hid, fun s' r' hr' hq' => ?_⟩
    obtain ⟨s'', hs''⟩ := hold s' r' hr' hq'
    exact hall s'' r' hs'' hq'

end Session

namespace History

variable {x : Session} {past : List Session}

theorem final_traced {xs : List Session} (h : History xs) :
    ∀ y ∈ xs, ∀ res, y.result.1 = .ok res → y.final.current.Traced xs := by
  induction h with
  | nil => simp
  | @cons x past _ graph loads ih =>
    obtain ⟨c, supplies, hg⟩ := graph
    obtain ⟨hfresh, hprev⟩ := loads.previous
    have htraced : x.site.ledger.previous.Traced past := by
      rcases hprev with hprev | ⟨y, hy, ⟨res, hres⟩, hprev⟩
      · rw [hprev]
        exact Generation.empty_traced past
      · rw [hprev]
        exact ih y hy res hres
    intro y hy res hres
    rcases List.mem_cons.mp hy with rfl | hy
    · exact Session.final_traced hg.valid.2 hfresh hres htraced
    · exact (ih y hy res hres).mono (List.subset_cons_self x past)

theorem previous_traced (h : History (x :: past)) : x.Fresh ∧ x.site.ledger.previous.Traced past := by
  cases h with
  | cons before graph loads =>
    have hpast := before.final_traced
    obtain ⟨hfresh, hprev⟩ := loads.previous
    refine ⟨hfresh, ?_⟩
    rcases hprev with hprev | ⟨y, hy, ⟨res, hres⟩, hprev⟩
    · rw [hprev]
      exact Generation.empty_traced past
    · rw [hprev]
      exact hpast y hy res hres

theorem exists_reused {res : SessionResult}
    (hres : x.result.1 = .ok res) {report : Report} (hr : report ∈ res.reports)
    (ho : report.outcome = .skipped .upToDate) : ∃ e ∈ x.evaluations, e.task.id = report.task ∧
      e.outcome x.plan = .skipped .upToDate := by
  rw [(Session.result_of_ok hres).1] at hr
  obtain ⟨i, t, ht, rfl⟩ := Session.mem_reports hr
  have hout : x.ended.outcome? i = some (.skipped .upToDate) := by
    rcases hi : x.ended.outcomes[i]? with _ | _ | o
    · simp [Coordinator.outcomeOf, hi] at ho
    · simp [Coordinator.outcomeOf, hi] at ho
    · simpa [Coordinator.outcomeOf, Coordinator.outcome?, hi] using ho
  obtain ⟨e, he, rfl, ho'⟩ := x.logged.exists_of_success hout rfl
  obtain rfl : e.task = t := Option.some.inj ((x.logged.task e he).symm.trans ht)
  exact ⟨e, he, rfl, ho'⟩

theorem published_of_mem {c : Catalog} (hg : x.plan.graph.Valid c) (hfresh : x.Fresh)
    {res : SessionResult} (hres : x.result.1 = .ok res) {e : Evaluation} (he : e ∈ x.evaluations)
    (ho : (e.outcome x.plan).isUnattempted = false) {l : Ledger}
    (hl : l = (e.after x.plan).ledger ∨ l = x.final) {s : SlotId} {r : Record}
    (hr : r ∈ recordsAt l.current s) (hq : r.producer = some e.task.id) :
    r ∈ e.published x.plan ∧ r.slot = s := by
  have hsame : ∀ e' ∈ x.evaluations, r ∈ e'.published x.plan → r ∈ e.published x.plan := by
    intro e' he' hpub
    have hid : e'.task.id = e.task.id := Option.some.inj ((published_producer hpub).symm.trans hq)
    rwa [← Session.evaluation_unique hg he' he hid]
  rcases hl with rfl | rfl
  · obtain ⟨before, hsub, hbefore⟩ := x.passes.exists_before he
    have hsourced := (Coordinator.Passes.snoc hbefore).sourced (Session.begun_sourced hfresh hres)
    refine ⟨?_, hsourced.filed s r hr⟩
    rcases hsourced.sources s r hr with hnone | ⟨e', he', hpub⟩
    · simp [hnone] at hq
    · exact hsame e' (hsub he') hpub
  · rcases Session.mem_final hfresh hres hr with ⟨hnone | ⟨e', he', hpub⟩, hs⟩ | ⟨-, q, hmem, hq'⟩
    · simp [hnone] at hq
    · exact ⟨hsame e' he' hpub, hs⟩
    · obtain rfl : q = e.task.id := Option.some.inj (hq'.symm.trans hq)
      exact absurd hmem (Session.notMem_unattempted hg hres he ho _)

theorem reused_origin (h : History (x :: past)) {res : SessionResult} (hres : x.result.1 = .ok res)
    {e : Evaluation} (he : e ∈ x.evaluations) (ho : e.outcome x.plan = .skipped .upToDate) :
    e.task.outputs ≠ [] ∧
      (∀ r ∈ e.published x.plan, r.isIntact e.site.world.files e.site.world.cwd = true) ∧
      ∃ y ∈ past, ∃ d, y.Executed d ∧ d.task.id = e.task.id ∧ d.fingerprint = e.fingerprint ∧
        ∀ r ∈ e.published x.plan, r ∈ d.published y.plan := by
  have hprev := h.previous_traced.2
  rw [← Session.site_previous hres he] at hprev
  have hev := e.evaluated x.plan
  rw [ho] at hev
  generalize e.after x.plan = site' at hev
  cases hev with
  | idle _ fruitless _ => simp [Outcome.isSuccess] at fruitless
  | reused saved _ =>
    have hpub : e.published x.plan = _ := published_of_saved saved
    rw [hpub]
    obtain ⟨-, hhist, hsame, hintact⟩ := verdict_ok saved
    obtain ⟨hne, hfull, hmem⟩ := history?_eq_some hhist
    obtain ⟨s, hs⟩ := List.exists_mem_of_ne_nil _ hne
    obtain ⟨r, hr, hq⟩ := hfull s hs
    obtain ⟨y, hy, d, hd, hid, hall⟩ := hprev.origin _ s r hr hq
    refine ⟨hne, hintact, y, hy, d, hd, hid, ?_, fun r' hr' => ?_⟩
    · obtain ⟨reason, hexec⟩ := hd.ran
      have hnew := d.evaluated y.plan
      rw [hexec] at hnew
      have hfp := (hnew.published_new.1 r (hall s r hr hq)).2.2
      rw [hsame r ((hmem r).mpr ⟨s, hs, hr, hq⟩)] at hfp
      exact (Option.some.inj hfp).symm
    · obtain ⟨s', -, hs', hq'⟩ := (hmem r').mp hr'
      exact hall s' r' hs' hq'

end History

/-- Where a session passes a task as up to date, one execution in an earlier session stands for it:
its inputs had the same fingerprint, the records of the task are those that it has published, and
what they record is still there. No producer has records of two executions in a generation. -/
theorem History.reuse_traced {x : Session} {past : List Session} (h : History (x :: past))
    {res : SessionResult} (hres : x.result.1 = .ok res) :
    (∀ report ∈ res.reports, report.outcome = .skipped .upToDate → ∃ e ∈ x.evaluations,
      e.task.id = report.task ∧ e.outcome x.plan = .skipped .upToDate ∧ e.task.outputs ≠ [] ∧
      ∃ y ∈ past, ∃ d, y.Executed d ∧ d.task.id = e.task.id ∧ d.fingerprint = e.fingerprint ∧
        (∀ s ∈ e.task.outputs, ∃ r ∈ d.published y.plan,
          ((e.after x.plan).ledger.currentRecords s).filter (fun r => r.producer = some e.task.id) = [r]) ∧
        ∀ l, l = (e.after x.plan).ledger ∨ l = x.final → ∀ s, ∀ r ∈ l.currentRecords s,
          r.producer = some e.task.id → s ∈ e.task.outputs ∧ r.slot = s ∧ r ∈ d.published y.plan ∧
            r.isIntact e.site.world.files e.site.world.cwd = true) ∧
    ∀ q s r, r ∈ x.final.currentRecords s → r.producer = some q → ∃ y ∈ x :: past, ∃ d, y.Executed d ∧
      d.task.id = q ∧ ∀ s', ∀ r' ∈ x.final.currentRecords s', r'.producer = some q →
        r' ∈ d.published y.plan := by
  obtain ⟨hfresh, hprev⟩ := h.previous_traced
  have hfinal := h.final_traced x List.mem_cons_self res hres
  refine ⟨fun report hreport hup => ?_, fun q s r hr hq => ?_⟩
  · obtain ⟨c, supplies, hg⟩ : ∃ c supplies, x.plan.graph.BuiltFrom c supplies := by
      cases h with
      | cons _ graph _ => exact graph
    obtain ⟨e, he, hid, ho⟩ := exists_reused hres hreport hup
    obtain ⟨hne, hintact, y, hy, d, hd, hdid, hfp, hpub⟩ := h.reused_origin hres he ho
    have hfiled := hprev.filed
    rw [← Session.site_previous hres he] at hfiled
    have hev := e.evaluated x.plan
    rw [ho] at hev
    refine ⟨e, he, hid, ho, hne, y, hy, d, hd, hdid, hfp, fun s hs => ?_, fun l hl s r hr hq => ?_⟩
    · obtain ⟨slot, hslot⟩ := hev.declared hfiled rfl hs
      obtain ⟨r, hr, -, hbound⟩ := hev.fills hfiled rfl hs hslot
      obtain ⟨before, -, hbefore⟩ := x.passes.exists_before he
      have hsingle := ((Coordinator.Passes.snoc hbefore).sourced (Session.begun_sourced hfresh hres)).single
      have hmem : r ∈ recordsAt (e.after x.plan).ledger.current s := by
        rw [hbound]
        exact Ledger.mem_bound_self
      refine ⟨r, hpub r hr, ?_⟩
      rw [← published_producer hr]
      exact hsingle.filter_eq hmem
    · obtain ⟨hr, hslot⟩ := published_of_mem hg.valid.2 hfresh hres he
        (by rw [ho]; rfl) hl (Generation.mem_recordsIn.mp hr) hq
      exact ⟨hslot ▸ published_slot hfiled hr, hslot, hpub r hr, hintact r hr⟩
  · obtain ⟨y, hy, d, hd, hid, hall⟩ := hfinal.origin q s r (Generation.mem_recordsIn.mp hr) hq
    exact ⟨y, hy, d, hd, hid, fun s' r' hr' hq' => hall s' r' (Generation.mem_recordsIn.mp hr') hq'⟩

/-! A pipeline of one task that reports an output with no files, run twice over one state file. -/

namespace Pack

def catalog : Catalog := ⟨[Slot.multiple "out" .file .outputs]⟩

def task : Task := (Task.make "pack" fun _ w => (.reported [("out", [])], w)).withOutput "out"

def graph : Graph := ⟨[task], [], [("out", [0])], []⟩

def session (l : Ledger) : Session where
  plan := ⟨catalog, graph, ⟨1, false, false⟩⟩
  supplies := []
  moves := []
  site := ⟨l, ⟨.empty, [], [], 0, false, .bare⟩⟩

def first : Session := session (.empty ⟨"state"⟩)

def second : Session := session (.after ⟨"state"⟩ first.final.current)

theorem graph_builtFrom : graph.BuiltFrom catalog [] :=
  .build (show Graph.build catalog [] [task] = .ok graph from rfl)

theorem exists_result (l : Ledger) : ∃ res, (session l).result.1 = .ok res :=
  Session.exists_result rfl

theorem first_history : History [first] :=
  .cons .nil ⟨catalog, [], graph_builtFrom⟩ ⟨.empty, [], ⟨"state"⟩, by decide, .inl (by decide)⟩

theorem second_history : History [second, first] := by
  refine .cons first_history ⟨catalog, [], graph_builtFrom⟩ ?_
  obtain ⟨res, hres⟩ := exists_result (.empty ⟨"state"⟩)
  have hread : FileTree.read ⟨[(["state"], .file first.final.current.toBytes)]⟩ [] ⟨"state"⟩ =
      .ok first.final.current.toBytes := rfl
  refine ⟨_, _, _, ?_, .inr ⟨first, List.mem_cons_self, ⟨res, hres⟩, hread⟩⟩
  exact Ledger.load_of_read hread

theorem reports_eq {l : Ledger} {res : SessionResult}
    (hres : (session l).result.1 = .ok res) :
    res.reports = [⟨"pack", (session l).ended.outcomeOf 0⟩] := by
  have horder : (session l).plan.graph.order = [0] := rfl
  have htask : (session l).plan.graph.task? 0 = some task := rfl
  rw [(Session.result_of_ok hres).1, Coordinator.reports, horder]
  simp only [List.filterMap_cons, List.filterMap_nil, htask, Option.map_some]
  rfl

section rounds

open Coordinator

variable {p : Plan} {site left : Site} {o : Outcome}

theorem move_launches (hgraph : p.graph = graph) (hworkers : workers p = 1)
    (hlive : site.world.cancelled = false) :
    move p (start graph site) (nextMove p (start graph site)) =
      { start graph site with frontier := ⟨[0], []⟩, running := [0] } := by
  have hnext : nextMove p (start graph site) = .coordinate := by
    rw [nextMove, hworkers]
    rfl
  have hcalm : ((start graph site).halted || (start graph site).site.world.cancelled) = false := hlive
  rw [hnext, move, coordinate, hworkers, hgraph]
  change (if (start graph site).halted || (start graph site).site.world.cancelled then _ else _) = _
  rw [hcalm]
  rfl

theorem move_evaluates (hgraph : p.graph = graph) (hworkers : workers p = 1)
    (heval : evaluate p.catalog p.config task site = (o, left)) :
    move p { start graph site with frontier := ⟨[0], []⟩, running := [0] }
        (nextMove p { start graph site with frontier := ⟨[0], []⟩, running := [0] }) =
      { start graph site with frontier := ⟨[0], []⟩, arrived := [(0, o)], site := left } := by
  have htask : p.graph.task? 0 = some task := by rw [hgraph]; rfl
  simp [nextMove, inFlight, hworkers, move, work, htask, heval, start]

theorem move_settles (hgraph : p.graph = graph) (hworkers : workers p = 1)
    (hpatient : p.config.failFast = false) :
    move p { start graph site with frontier := ⟨[0], []⟩, arrived := [(0, o)], site := left }
        (nextMove p { start graph site with frontier := ⟨[0], []⟩, arrived := [(0, o)], site := left }) =
      settle graph 0 o { start graph site with frontier := ⟨[0], []⟩, site := left } := by
  simp [nextMove, inFlight, hworkers, move, coordinate, receive, start, hgraph, hpatient]

/-- The task is launched, evaluated and settled, and that is all. -/
theorem complete_eq (p : Plan) (site : Site) (hgraph : p.graph = graph) (hworkers : workers p = 1)
    (hpatient : p.config.failFast = false) (hlive : site.world.cancelled = false) :
    (complete p site []).outcomeOf 0 = (evaluate p.catalog p.config task site).1 ∧
      (complete p site []).site = (evaluate p.catalog p.config task site).2 := by
  rcases heval : evaluate p.catalog p.config task site with ⟨o, left⟩
  have hstart : complete p site [] = finishWithin p 4 (start graph site) := by
    rw [complete, finish, hgraph]
    rfl
  have hround : ∀ {n : Nat} {c c' : Coordinator}, c.isDone = false → move p c (nextMove p c) = c' →
      finishWithin p (n + 1) c = finishWithin p n c' := by
    rintro n c c' hgoing rfl
    rw [finishWithin, if_neg (by simp [hgoing])]
  rw [hstart, hround rfl (move_launches hgraph hworkers hlive),
    hround rfl (move_evaluates hgraph hworkers heval),
    hround rfl (move_settles hgraph hworkers hpatient), finishWithin, if_pos (by rfl)]
  exact ⟨rfl, rfl⟩

end rounds

/-- What the first session binds. -/
def packed : Record :=
  ⟨"out", [], Digest.ofUnordered [], some (Fingerprint.ofInputs task []), some "pack", 0⟩

theorem first_binds : first.final.current.records = [("out", [packed])] := by
  obtain ⟨res, hres⟩ : ∃ res, first.result.1 = .ok res := exists_result (.empty ⟨"state"⟩)
  have hended : first.ended.site = (evaluate catalog ⟨1, false, false⟩ task first.site).2 :=
    (complete_eq first.plan first.begun rfl rfl rfl rfl).2
  have hnone : unattempted first.plan.graph first.ended.site.ledger.previous res.reports = [] := by
    have hprevious : first.ended.site.ledger.previous.records = [] := by
      rw [hended]
      with_unfolding_all rfl
    simp [unattempted, hprevious, sortedSet]
  rw [(Session.result_of_ok hres).2, hnone, hended]
  with_unfolding_all rfl

/-- What the first session has bound stands for the task in the second one, whatever the catalog is. -/
theorem evaluate_second {c : Catalog} {l : Ledger}
    (hbound : bindAll c second.site.ledger [packed] = (.ok (), l)) :
    evaluate c second.plan.config task second.site =
      (.skipped .upToDate, { second.site with ledger := l }) := by
  have hprevious : second.site.ledger.previousRecords "out" (some "pack") = [packed] := by
    have hrecords : second.site.ledger.previous.records = [("out", [packed])] := first_binds
    simp [Ledger.previousRecords, Generation.recordsIn, hrecords, Keyed.get?, packed]
  have hhistory : task.history? second.site.ledger = some [packed] := by
    have houtputs : task.outputs = ["out"] := rfl
    have hid : task.id = "pack" := rfl
    simp [Task.history?, houtputs, hid, hprevious]
  have hintact : packed.isIntact second.site.world.files second.site.world.cwd = true := by
    have hdigest : second.site.world.files.fingerprint second.site.world.cwd packed.locations =
        .ok packed.fingerprint := rfl
    rw [Record.isIntact, hdigest]
    exact beq_self_eq_true packed.fingerprint
  exact evaluate_of_verdict (verdict_of_history rfl hhistory (List.forall_mem_singleton.mpr rfl)
    (List.forall_mem_singleton.mpr hintact)) hbound

theorem second_outcome : second.ended.outcomeOf 0 = .skipped .upToDate := by
  have hsettled := (complete_eq second.plan second.begun rfl rfl rfl rfl).1
  exact hsettled.trans (congrArg Prod.fst (evaluate_second rfl))

theorem second_reuses_first : ∃ e ∈ second.evaluations, e.task.id = "pack" ∧
    e.outcome second.plan = .skipped .upToDate ∧ ∃ d, first.Executed d ∧ d.task.id = "pack" ∧
      d.fingerprint = e.fingerprint := by
  obtain ⟨res, hres⟩ := exists_result (.after ⟨"state"⟩ first.final.current)
  obtain ⟨e, he, hid, ho, -, y, hy, d, hd, hdid, hfp, -⟩ := (second_history.reuse_traced hres).1
    ⟨"pack", second.ended.outcomeOf 0⟩ (by simp [reports_eq hres, second]) second_outcome
  rw [List.mem_singleton.mp hy] at hd
  exact ⟨e, he, hid, ho, d, hd, hdid.trans hid, hfp⟩

end Pack

end SlotBuild
