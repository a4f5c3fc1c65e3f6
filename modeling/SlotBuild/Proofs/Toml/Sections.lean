import SlotBuild.Proofs.Toml.Value

/-! The sections that a table is written as, and the table that they are read as: the same one, but
for the place of the tables in it, which stand behind all else. -/

namespace SlotBuild.Toml

mutual

/-- A table as it is read back. -/
def arranged : Value → Value
  | .table es => .table (bodyOf es ++ arrangedTables es)
  | .array xs => .array (arrangedElements xs)
  | v => v

def arrangedElements : List Value → List Value
  | [] => []
  | x :: xs => arranged x :: arrangedElements xs

def arrangedTables : List (String × Value) → List (String × Value)
  | [] => []
  | (k, x) :: es => (if hasHeader x then [(k, arranged x)] else []) ++ arrangedTables es

end

/-- The section of a table itself. -/
def ownSections (repeated : Bool) (parents : List String) (k : String) (es : Entries) :
    List Section :=
  if repeated || es.isEmpty || bodyOf es ≠ []
  then [⟨⟨parents, k⟩, repeated, plainPairs (bodyOf es)⟩] else []

mutual

def sectionsOf (repeated : Bool) (parents : List String) (k : String) : Value → List Section
  | .table es => ownSections repeated parents k es ++ entrySections (parents ++ [k]) es
  | .array xs => elementSections parents k xs
  | _ => []

def elementSections (parents : List String) (k : String) : List Value → List Section
  | [] => []
  | x :: xs => sectionsOf true parents k x ++ elementSections parents k xs

def entrySections (parents : List String) : List (String × Value) → List Section
  | [] => []
  | (k, x) :: es => (if hasHeader x then sectionsOf false parents k x else []) ++
    entrySections parents es

end

section under

variable {j : String} {pre inner : Nodes}

/-- The same section one table further in. -/
def Section.under (j : String) (s : Section) : Section :=
  { s with path := ⟨j :: s.path.parents, s.path.key⟩ }

theorem entrySections_under_of {es : Entries} {parents : List String}
    (h : ∀ e ∈ es, ∀ repeated parents k,
      sectionsOf repeated (j :: parents) k e.2 =
      (sectionsOf repeated parents k e.2).map (Section.under j)) :
    entrySections (j :: parents) es = (entrySections parents es).map (Section.under j) := by
  induction es with
  | nil => rfl
  | cons e es ih =>
    obtain ⟨he, hes⟩ := List.forall_mem_cons.mp h
    rw [entrySections, entrySections, ih hes, he, List.map_append]
    split <;> rfl

theorem sectionsOf_under (v : Value) (repeated : Bool) (parents : List String) (k : String) :
    sectionsOf repeated (j :: parents) k v =
    (sectionsOf repeated parents k v).map (Section.under j) := by
  induction v using Value.induct generalizing repeated parents k with
  | array xs ih =>
    simp only [sectionsOf]
    induction xs with
    | nil => rfl
    | cons x xs ihxs =>
      obtain ⟨hx, hxs⟩ := List.forall_mem_cons.mp ih
      rw [elementSections, elementSections, ihxs hxs, hx, List.map_append]
  | table es ih =>
    rw [sectionsOf, sectionsOf, List.cons_append, entrySections_under_of ih, List.map_append]
    congr 1
    rw [ownSections, ownSections]
    split <;> rfl
  | _ => rfl

theorem entrySections_under (es : Entries) (parents : List String) :
    entrySections (j :: parents) es = (entrySections parents es).map (Section.under j) :=
  entrySections_under_of fun e _ => sectionsOf_under e.2

/-- What holds a table to which sections may add. -/
inductive Holds : (Nodes → Node) → Prop
  | table (origin : Origin) : Holds (.table origin)
  | tables (earlier : List Value) : Holds (.tables earlier)

theorem edit_origin (f : Nodes → Option Nodes) (path : List String) (o o' : Origin) (es : Nodes) :
    Nodes.edit false (fun _ => f) path o es = Nodes.edit false (fun _ => f) path o' es := by
  cases path <;> rfl

theorem addTo_under {C : Nodes → Node} (hC : Holds C) (hj : Nodes.get? j pre = none) (inner : Nodes)
    (s : Section) :
    Section.addTo (pre ++ [(j, C inner)]) (s.under j) =
      (Section.addTo inner s).map fun inner => pre ++ [(j, C inner)] := by
  cases hC with
  | table origin =>
    simp only [Section.addTo, Section.under, Nodes.edit, Nodes.get?_append_new hj,
      Nodes.replace_append_new hj]
    simp [edit_origin _ _ origin .explicit, Option.map_eq_bind]
    rfl
  | tables earlier =>
    simp only [Section.addTo, Section.under, Nodes.edit, Nodes.get?_append_new hj,
      Nodes.replace_append_new hj]
    simp [Option.map_eq_bind]
    rfl

theorem addTo_under_new (hj : Nodes.get? j pre = none) (s : Section) :
    Section.addTo pre (s.under j) =
    (Section.addTo [] s).map fun inner => pre ++ [(j, .table .implied inner)] := by
  simp only [Section.addTo, Section.under, Nodes.edit, hj]
  simp [edit_origin _ _ .implied .explicit, Option.map_eq_bind]
  rfl

theorem foldlM_under {C : Nodes → Node} (hC : Holds C) (hj : Nodes.get? j pre = none)
    (ss : List Section) (inner : Nodes) :
    (ss.map (Section.under j)).foldlM Section.addTo (pre ++ [(j, C inner)]) =
      (ss.foldlM Section.addTo inner).map fun inner => pre ++ [(j, C inner)] := by
  induction ss generalizing inner with
  | nil => rfl
  | cons s ss ih =>
    rw [List.map_cons, List.foldlM_cons, addTo_under hC hj, List.foldlM_cons]
    cases Section.addTo inner s with
    | none => rfl
    | some inner => exact ih inner

theorem foldlM_under_new (hj : Nodes.get? j pre = none) {ss : List Section} (hss : ss ≠ []) :
    (ss.map (Section.under j)).foldlM Section.addTo pre =
      (ss.foldlM Section.addTo []).map fun inner => pre ++ [(j, .table .implied inner)] := by
  obtain ⟨s, ss, rfl⟩ := List.exists_cons_of_ne_nil hss
  rw [List.map_cons, List.foldlM_cons, addTo_under_new hj, List.foldlM_cons]
  cases Section.addTo [] s with
  | none => rfl
  | some inner => exact foldlM_under (.table .implied) hj ss inner

end under

section gathering

variable {k : String} {es : Entries} {pre : Nodes}

/-- Behind other entries, the sections of a value become one more, under its key. -/
def Gathers (k : String) (v : Value) : Prop :=
  ∀ pre : Nodes, Nodes.get? k pre = none →
    ∃ node, (sectionsOf false [] k v).foldlM Section.addTo pre = some (pre ++ [(k, node)]) ∧
      node.toValue = arranged v

theorem foldlM_entrySections (h : ∀ e ∈ es, hasHeader e.2 = true → Gathers e.1 e.2)
    (hkeys : (es.map (·.1)).Nodup)
    (hnew : ∀ e ∈ es, hasHeader e.2 = true → Nodes.get? e.1 pre = none) :
    ∃ nodes, (entrySections [] es).foldlM Section.addTo pre = some (pre ++ nodes) ∧
      entriesOf nodes = arrangedTables es := by
  induction es generalizing pre with
  | nil => exact ⟨[], by simp [entrySections], rfl⟩
  | cons e es ih =>
    obtain ⟨he, hes⟩ := List.forall_mem_cons.mp h
    obtain ⟨hnewe, hnewes⟩ := List.forall_mem_cons.mp hnew
    obtain ⟨hfresh, hkeys⟩ : e.1 ∉ es.map (·.1) ∧ (es.map (·.1)).Nodup := List.nodup_cons.mp hkeys
    rw [entrySections, arrangedTables]
    by_cases hheader : hasHeader e.2 = true
    · obtain ⟨node, hfold, hvalue⟩ := he hheader pre (hnewe hheader)
      have hnew' : ∀ f ∈ es, hasHeader f.2 = true →
          Nodes.get? f.1 (pre ++ [(e.1, node)]) = none := by
        intro f hf hf'
        have hne : f.1 ≠ e.1 := fun heq => hfresh (heq ▸ List.mem_map_of_mem hf)
        rw [Nodes.get?_eq_none_iff]
        simpa [hne] using Nodes.get?_eq_none_iff.mp (hnewes f hf hf')
      obtain ⟨nodes, hnodes, hentries⟩ := ih hes hkeys hnew'
      refine ⟨(e.1, node) :: nodes, ?_, by simp [entriesOf, hheader, hvalue, hentries]⟩
      rw [if_pos hheader, List.foldlM_append, hfold]
      simpa using hnodes
    · obtain ⟨nodes, hnodes, hentries⟩ := ih hes hkeys hnewes
      refine ⟨nodes, ?_, by simp [hheader, hentries]⟩
      simpa [hheader] using hnodes

/-- The pairs of a table and then its tables make up the whole of it. -/
structure Fills (es : Entries) : Prop where
  pairs : Nodes.addPairs [] (plainPairs (bodyOf es)) = some (valueNodes (bodyOf es))
  tables : ∃ inner,
    (entrySections [] es).foldlM Section.addTo (valueNodes (bodyOf es)) = some inner ∧
    Value.table (entriesOf inner) = arranged (.table es)

theorem fills (h : ∀ e ∈ es, hasHeader e.2 = true → Gathers e.1 e.2)
    (hkeys : (es.map (·.1)).Nodup) : Fills es where
  pairs := by
    have hbody : ((bodyOf es).map (·.1)).Nodup := hkeys.sublist (List.filter_sublist.map _)
    have hnew : ∀ e ∈ bodyOf es, Nodes.get? e.1 [] = none := fun e _ => rfl
    simpa using addPairs_plainPairs hbody hnew
  tables := by
    have hnew : ∀ e ∈ es, hasHeader e.2 = true →
        Nodes.get? e.1 (valueNodes (bodyOf es)) = none := by
      intro e he hheader
      rw [Nodes.get?_eq_none_iff, keys_valueNodes]
      intro hmem
      obtain ⟨f, hf, hkey⟩ := List.mem_map.mp hmem
      obtain ⟨hf, hbody⟩ := List.mem_filter.mp hf
      obtain rfl := List.inj_on_of_nodup_map hkeys hf he hkey
      simp [hheader] at hbody
    obtain ⟨nodes, hnodes, hentries⟩ := foldlM_entrySections h hkeys hnew
    exact ⟨_, hnodes, by rw [entriesOf_append, entriesOf_valueNodes, hentries, arranged]⟩

/-- The table holds only tables, so it has no section of its own. -/
def OnlyTables (es : Entries) : Prop := es ≠ [] ∧ bodyOf es = []

theorem ownSections_eq (repeated : Bool) (parents : List String) (k : String) (es : Entries) :
    ownSections repeated parents k es = [⟨⟨parents, k⟩, repeated, plainPairs (bodyOf es)⟩] ∨
      repeated = false ∧ OnlyTables es ∧ ownSections repeated parents k es = [] := by
  rw [ownSections]
  split_ifs with h
  · exact Or.inl rfl
  · simp only [Bool.or_eq_true, decide_eq_true_eq, not_or, Bool.not_eq_true, not_not,
      List.isEmpty_eq_false_iff] at h
    exact Or.inr ⟨h.1.1, ⟨h.1.2, h.2⟩, rfl⟩

theorem OnlyTables.head {es : Entries} (h : OnlyTables es) :
    ∃ e fs, es = e :: fs ∧ hasHeader e.2 = true := by
  obtain ⟨e, fs, rfl⟩ := List.exists_cons_of_ne_nil h.1
  exact ⟨e, fs, rfl, by simpa using List.filter_eq_nil_iff.mp h.2 e List.mem_cons_self⟩

/-- A value with a header has at least one section. -/
theorem sectionsOf_ne_nil {v : Value} (h : hasHeader v = true) (repeated : Bool)
    (parents : List String) (k : String) :
    sectionsOf repeated parents k v ≠ [] := by
  induction v using Value.induct generalizing repeated parents k with
  | array xs ih =>
    simp only [hasHeader, Bool.and_eq_true, decide_eq_true_eq, List.all_eq_true] at h
    obtain ⟨x, xs, rfl⟩ := List.exists_cons_of_ne_nil h.1
    have hx := h.2 x List.mem_cons_self
    cases x with
    | table es => simp [sectionsOf, elementSections, ownSections]
    | _ => simp [Value.isTable] at hx
  | table es ih =>
    rw [sectionsOf]
    rcases ownSections_eq repeated parents k es with hown | ⟨-, hes, -⟩
    · simp [hown]
    · obtain ⟨e, fs, rfl, he⟩ := hes.head
      have hne := ih e List.mem_cons_self he false (parents ++ [k]) e.1
      simp [entrySections, he, hne]
  | _ => simp [hasHeader] at h

theorem OnlyTables.entrySections_ne_nil (h : OnlyTables es) (parents : List String) :
    entrySections parents es ≠ [] := by
  obtain ⟨e, fs, rfl, he⟩ := h.head
  simp [entrySections, he, sectionsOf_ne_nil he]

theorem Fills.gathers (h : Fills es) (k : String) : Gathers k (.table es) := by
  intro pre hpre
  obtain ⟨inner, hinner, hvalue⟩ := h.tables
  rw [sectionsOf, List.nil_append, entrySections_under, List.foldlM_append]
  rcases ownSections_eq false [] k es with hown | ⟨-, hes, hown⟩
  · have hopen : Section.addTo pre ⟨⟨[], k⟩, false, plainPairs (bodyOf es)⟩ =
        some (pre ++ [(k, .table .explicit (valueNodes (bodyOf es)))]) := by
      simp [Section.addTo, Nodes.edit, Nodes.openTable, hpre, h.pairs]
    refine ⟨.table .explicit inner, ?_, hvalue⟩
    rw [hown, List.foldlM_cons, hopen]
    simp [foldlM_under (.table .explicit) hpre, hinner]
  · have hfold := foldlM_under_new hpre (hes.entrySections_ne_nil [])
    have hempty : valueNodes (bodyOf es) = [] := by rw [hes.2]; rfl
    rw [hempty] at hinner
    refine ⟨.table .implied inner, ?_, hvalue⟩
    rw [hown, List.foldlM_nil]
    simp [hfold, hinner]

/-- The sections of a table in an array of tables go into the element that its header has opened. -/
theorem foldlM_element {before inner : Nodes} {earlier : List Value} (hpre : Nodes.get? k pre = none)
    (hopen : Section.addTo before ⟨⟨[], k⟩, true, plainPairs (bodyOf es)⟩ =
      some (pre ++ [(k, .tables earlier (valueNodes (bodyOf es)))]))
    (hinner : (entrySections [] es).foldlM Section.addTo (valueNodes (bodyOf es)) = some inner)
    (xs : List Value) : (elementSections [] k (.table es :: xs)).foldlM Section.addTo before =
      (elementSections [] k xs).foldlM Section.addTo (pre ++ [(k, .tables earlier inner)]) := by
  rw [elementSections, sectionsOf, List.nil_append, entrySections_under]
  simp only [ownSections, Bool.true_or, if_true, List.cons_append, List.nil_append,
    List.foldlM_cons, hopen, List.foldlM_append, Option.bind_eq_bind, Option.bind_some]
  rw [foldlM_under (.tables _) hpre, hinner]
  rfl

/-- Each further table of an array of tables becomes its last element. -/
theorem foldlM_elementSections {xs : List Value} (hpre : Nodes.get? k pre = none)
    (h : ∀ x ∈ xs, ∃ es, x = .table es ∧ Fills es) (earlier : List Value) (last : Nodes) :
    ∃ node, (elementSections [] k xs).foldlM Section.addTo (pre ++ [(k, .tables earlier last)]) =
        some (pre ++ [(k, node)]) ∧
      node.toValue = .array (earlier ++ .table (entriesOf last) :: arrangedElements xs) := by
  induction xs generalizing earlier last with
  | nil => exact ⟨_, rfl, rfl⟩
  | cons x xs ih =>
    obtain ⟨⟨es, rfl, hes⟩, hxs⟩ := List.forall_mem_cons.mp h
    obtain ⟨inner, hinner, hvalue⟩ := hes.tables
    obtain ⟨node, hnode, hlist⟩ := ih hxs (earlier ++ [.table (entriesOf last)]) inner
    refine ⟨node, ?_, by rw [hlist, hvalue]; simp [arrangedElements]⟩
    rw [foldlM_element hpre ?_ hinner, hnode]
    simp [Section.addTo, Nodes.edit, Nodes.appendTable, hes.pairs, Nodes.get?_append_new hpre,
      Nodes.replace_append_new hpre]

theorem gathers_array {xs : List Value} (hne : xs ≠ [])
    (h : ∀ x ∈ xs, ∃ es, x = .table es ∧ Fills es) (k : String) :
    Gathers k (.array xs) := by
  intro pre hpre
  obtain ⟨x, xs, rfl⟩ := List.exists_cons_of_ne_nil hne
  obtain ⟨⟨es, rfl, hes⟩, hxs⟩ := List.forall_mem_cons.mp h
  obtain ⟨inner, hinner, hvalue⟩ := hes.tables
  obtain ⟨node, hnode, hlist⟩ := foldlM_elementSections hpre hxs [] inner
  refine ⟨node, ?_, by rw [hlist, hvalue]; simp [arranged, arrangedElements]⟩
  rw [sectionsOf, foldlM_element hpre ?_ hinner, hnode]
  simp [Section.addTo, Nodes.edit, Nodes.appendTable, hes.pairs, hpre]

theorem isTable_iff {v : Value} : v.isTable = true ↔ ∃ es, v = .table es := by
  cases v <;> simp [Value.isTable]

/-- An array gathers what its tables are filled with, so both are proved at once. -/
theorem Value.Sound.fills_and_gathers {v : Value} (h : v.Sound) :
    (∀ es, v = .table es → Fills es) ∧ (hasHeader v = true → ∀ k, Gathers k v) := by
  induction v using Value.induct with
  | array xs ih =>
    rw [Sound, elementsSound_iff] at h
    refine ⟨by simp, fun hheader k => ?_⟩
    simp only [hasHeader, Bool.and_eq_true, decide_eq_true_eq, List.all_eq_true] at hheader
    refine gathers_array hheader.1 (fun x hx => ?_) k
    obtain ⟨es, rfl⟩ := isTable_iff.mp (hheader.2 x hx)
    exact ⟨es, rfl, (ih _ hx (h _ hx)).1 es rfl⟩
  | table es ih =>
    rw [Sound, entriesSound_iff] at h
    have hfills := fills (fun e he hheader => (ih e he (h.2 e he)).2 hheader e.1) h.1
    refine ⟨fun fs hfs => ?_, fun _ k => hfills.gathers k⟩
    cases hfs
    exact hfills
  | _ => simp [hasHeader]

end gathering

end SlotBuild.Toml
