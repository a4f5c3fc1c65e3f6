import SlotBuild.Manifest.Shape
import SlotBuild.Proofs.Failure
import SlotBuild.Proofs.Keyed
import SlotBuild.Proofs.Toml.Value

/-! Reading typed data out of tables: what the data read from sound values has in common, and how
records are read back from the entries that they are written as. -/

namespace SlotBuild.Shape

variable {α β : Type}

/-- Whatever is read from a sound value has the property. -/
def Yields (P : α → Prop) (item : Toml.Value → Result α) : Prop :=
  ∀ v x, v.Sound → item v = .ok x → P x

section yields

variable {P : α → Prop} {Q : β → Prop} {item : Toml.Value → Result β}

theorem entries?_sound {v : Toml.Value} {es : Toml.Entries} (hv : v.Sound)
    (h : entries? v = some es) :
    ∀ e ∈ es, e.2.Sound := by
  cases v with
  | table fs =>
    obtain rfl := Option.some.inj h
    exact Toml.Value.entriesSound_iff.mp hv.2
  | datetime d =>
    obtain rfl := Option.some.inj h
    simp [Toml.Value.Sound]
  | _ => cases h

theorem yields_list (hitem : Yields Q item) : Yields (fun ys => ∀ y ∈ ys, Q y) (list item) := by
  intro v ys hv h
  cases v with
  | array xs =>
    have hsound := Toml.Value.elementsSound_iff.mp hv
    intro y hy
    obtain ⟨x, hx, hread⟩ := exists_left_of_forall₂ (mapM_eq_ok.mp h) y hy
    exact hitem x y (hsound x hx) hread
  | _ => cases h

theorem yields_map (hitem : Yields Q item) :
    Yields (fun m => Keyed.Ordered m ∧ ∀ e ∈ m, Q e.2) (map item) := by
  intro v m hv h
  rw [map] at h
  split at h
  case h_1 es hes =>
    have hsound := entries?_sound hv hes
    obtain ⟨ps, hps, heq⟩ := bind_eq_ok.mp h
    obtain rfl := Except.ok.inj heq
    refine ⟨Keyed.Ordered.ofList ps, fun p hp => ?_⟩
    obtain ⟨e, he, hread⟩ := exists_left_of_forall₂ (mapM_eq_ok.mp hps) p (Keyed.mem_ofList hp)
    obtain ⟨y, hy, hpair⟩ := bind_eq_ok.mp hread
    obtain rfl := Except.ok.inj hpair
    exact hitem e.2 y (hsound e he) hy
  case h_2 => cases h

/-- Setting the field keeps the property of the record. -/
def RecordField.Keeps (P : α → Prop) (f : RecordField α) : Prop :=
  ∀ v x y, v.Sound → P x → f.read v x = .ok y → P y

theorem RecordField.keeps_of {name : String} {required : Bool} {set : β → α → α}
    (hitem : Yields Q item) (hset : ∀ b x, Q b → P x → P (set b x)) :
    (RecordField.of name required item set).Keeps P := by
  intro v x y hv hx h
  obtain ⟨b, hb, heq⟩ := bind_eq_ok.mp h
  obtain rfl := Except.ok.inj heq
  exact hset b x (hitem v b hv hb) hx

variable {fields : List (RecordField α)} {x y : α}

theorem recordOfEntries_keeps (hfields : ∀ f ∈ fields, f.Keeps P) (hx : P x) {es : Toml.Entries}
    (hes : ∀ e ∈ es, e.2.Sound) (h : recordOfEntries fields x es = .ok y) : P y := by
  have hread : ∀ x z, P x → es.foldlM (readEntry fields) x = .ok z → P z := by
    clear h
    induction es with
    | nil =>
      intro x z hx hz
      obtain rfl := Except.ok.inj hz
      exact hx
    | cons e es ih =>
      intro x z hx hz
      obtain ⟨he, hes⟩ := List.forall_mem_cons.mp hes
      rw [List.foldlM_cons] at hz
      obtain ⟨x', hx', hz⟩ := bind_eq_ok.mp hz
      refine ih hes x' z ?_ hz
      rw [readEntry] at hx'
      split at hx'
      case h_1 f hf => exact hfields f (List.mem_of_find?_eq_some hf) e.2 x x' he hx hx'
      case h_2 =>
        obtain rfl := Except.ok.inj hx'
        exact hx
  obtain ⟨z, hz, h⟩ := bind_eq_ok.mp h
  split at h
  · cases h
  · obtain rfl := Except.ok.inj h
    exact hread x z hx hz

theorem recordOfElements_keeps (hfields : ∀ f ∈ fields, f.Keeps P) (hx : P x) {vs : List Toml.Value}
    (hvs : ∀ v ∈ vs, v.Sound) {name : String} {size : Nat}
    (h : recordOfElements name size fields vs x = .ok y) : P y := by
  induction fields generalizing vs x with
  | nil =>
    obtain rfl := Except.ok.inj h
    exact hx
  | cons f fields ih =>
    obtain ⟨hf, hfields⟩ := List.forall_mem_cons.mp hfields
    cases vs with
    | nil =>
      rw [recordOfElements] at h
      split at h
      · cases h
      · exact ih hfields hx hvs h
    | cons v vs =>
      obtain ⟨hv, hvs⟩ := List.forall_mem_cons.mp hvs
      rw [recordOfElements] at h
      obtain ⟨x', hx', h⟩ := bind_eq_ok.mp h
      exact ih hfields (hf v x x' hv hx hx') hvs h

theorem yields_record (hfields : ∀ f ∈ fields, f.Keeps P) (hx : P x) (name : String) :
    Yields P (record name fields x) := by
  intro v y hv h
  rw [record.eq_def] at h
  split at h
  · exact recordOfElements_keeps hfields hx (Toml.Value.elementsSound_iff.mp hv) h
  · split at h
    case h_1 es hes => exact recordOfEntries_keeps hfields hx (entries?_sound hv hes) h
    case h_2 => cases h

end yields

section reading

theorem list_map {item : Toml.Value → Result β} {write : β → Toml.Value} {ys : List β}
    (h : ∀ y ∈ ys, item (write y) = .ok y) : list item (.array (ys.map write)) = .ok ys := by
  exact mapM_eq_ok.mpr (List.forall₂_map_left_iff.mpr (List.forall₂_same.mpr h))

theorem list_strings (ss : List String) : list string (.array (ss.map .string)) = .ok ss :=
  list_map fun _ _ => rfl

theorem named_name {choices : List (String × β)} {s : String} {c : β}
    (h : choices.find? (fun c => c.1 = s) = some (s, c)) : variant choices (.string s) = .ok c := by
  rw [variant, named, h]

theorem map_table {item : Toml.Value → Result β} {es : Toml.Entries} {ps : List (String × β)}
    (h : List.Forall₂ (fun e p => e.1 = p.1 ∧ item e.2 = .ok p.2) es ps) :
    map item (.table es) = .ok (Keyed.ofList ps) := by
  have hread : es.mapM (fun e => do return (e.1, ← item e.2)) = .ok ps := by
    refine mapM_eq_ok.mpr (h.imp fun e p hp => ?_)
    rw [hp.2, hp.1]
    rfl
  simp only [map, entries?, hread]
  rfl

variable {fields : List (RecordField α)} {x y : α}

theorem readEntry_field {k : String} {f : RecordField α}
    (hfield : fields.find? (fun f => f.name = k) = some f) (v : Toml.Value) (x : α) :
    readEntry fields x (k, v) = f.read v x := by
  rw [readEntry, hfield]

/-- The entries of a record are all read, and none that it must have is missing. -/
theorem recordOfEntries_eq_ok {es : Toml.Entries} (hread : es.foldlM (readEntry fields) x = .ok y)
    (hrequired : ∀ f ∈ fields, f.required = true → f.name ∈ es.map (·.1)) :
    recordOfEntries fields x es = .ok y := by
  have hmissing : fields.find? (fun f => f.required && !es.any fun e => e.1 = f.name) = none := by
    rw [List.find?_eq_none]
    intro f hf
    have hname := hrequired f hf
    simp only [List.mem_map] at hname
    simpa using hname
  exact bind_eq_ok.mpr ⟨y, hread, by rw [hmissing]⟩

end reading

end SlotBuild.Shape
