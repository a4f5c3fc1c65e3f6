import SlotBuild.Proofs.Binary64
import SlotBuild.Proofs.Toml.Value

/-! Every table that a configuration file is read as can be written: its numbers and dates are in
range, and each of its tables has each key once, whichever headers and dotted keys it was put
together from. -/

namespace SlotBuild.Toml

section words

variable {cs : List Char} {v : Value}

theorem canonical_of_specialFloat? {x : Binary64} (h : specialFloat? cs = some x) :
    x.Canonical := by
  unfold specialFloat? at h
  split at h
  · obtain rfl := Option.some.inj h
    trivial
  · obtain rfl := Option.some.inj h
    trivial
  · cases h

theorem canonical_of_decimalFloat? {x : Binary64} (h : decimalFloat? cs = some x) :
    x.Canonical := by
  simp only [decimalFloat?, Option.bind_eq_bind, Option.bind_eq_some_iff] at h
  obtain ⟨whole, -, h⟩ := h
  split at h
  all_goals
    simp only [Option.bind_eq_some_iff, Option.ite_none_left_eq_some, Option.some.injEq] at h
  · obtain ⟨_, ⟨⟩, -⟩ := h
  · obtain ⟨places, -, tail, -, power, -, -, rfl⟩ := h
    exact Binary64.ofDecimal_canonical _ _ _
  · obtain ⟨tail, -, power, -, -, rfl⟩ := h
    exact Binary64.ofDecimal_canonical _ _ _

theorem fits_of_integer? {i : Int} (h : integer? cs = some i) : fitsInteger i = true := by
  simp only [integer?, Option.bind_eq_bind, Option.bind_eq_some_iff, Option.ite_none_right_eq_some,
    Option.some.injEq] at h
  obtain ⟨j, -, hfits, rfl⟩ := h
  exact hfits

theorem sound_of_wordValue? (h : wordValue? cs = some v) : v.Sound := by
  rw [wordValue?] at h
  split_ifs at h with htrue hfalse
  · obtain rfl := Option.some.inj h
    trivial
  · obtain rfl := Option.some.inj h
    trivial
  · cases hspecial : specialFloat? cs with
    | some x =>
      simp only [hspecial] at h
      obtain rfl := Option.some.inj h
      exact canonical_of_specialFloat? hspecial
    | none =>
      simp only [hspecial] at h
      cases hd : Datetime.ofChars? cs with
      | some d =>
        simp only [hd] at h
        obtain rfl := Option.some.inj h
        exact Datetime.valid_of_ofChars? hd
      | none =>
        simp only [hd] at h
        cases hx : decimalFloat? cs with
        | some x =>
          simp only [hx] at h
          obtain rfl := Option.some.inj h
          exact canonical_of_decimalFloat? hx
        | none =>
          simp only [hx] at h
          obtain ⟨i, hi, rfl⟩ := Option.map_eq_some_iff.mp h
          exact fits_of_integer? hi

end words

/-- What is read has the property, whatever the text. -/
def Yields {α : Type} (P : α → Prop) (read : List Char → Option (α × List Char)) : Prop :=
  ∀ cs x r, read cs = some (x, r) → P x

section values

variable {value : ReadValue}

theorem yields_word? : Yields Value.Sound word? := by
  intro cs v r h
  simp only [word?] at h
  split at h
  all_goals
    simp only [Option.map_eq_some_iff, Prod.mk.injEq] at h
    obtain ⟨w, hw, rfl, -⟩ := h
    exact sound_of_wordValue? hw

theorem yields_flat? : Yields Value.Sound flat? := by
  intro cs v r h
  rw [flat?.eq_def] at h
  split at h
  · simp only [Option.map_eq_some_iff, Prod.mk.injEq] at h
    obtain ⟨p, -, rfl, -⟩ := h
    trivial
  · simp only [Option.map_eq_some_iff, Prod.mk.injEq] at h
    obtain ⟨p, -, rfl, -⟩ := h
    trivial
  · exact yields_word? _ _ _ h

theorem yields_elements? (hvalue : Yields Value.Sound value) (fuel : Nat) :
    Yields Value.ElementsSound (elements? value fuel) := by
  intro cs
  induction fuel generalizing cs with
  | zero => simp [elements?]
  | succ fuel ih =>
    intro vs r h
    rw [elements?] at h
    split at h
    · obtain ⟨rfl, -⟩ := Prod.mk.inj (Option.some.inj h)
      trivial
    · obtain ⟨⟨v, s⟩, hv, h⟩ := Option.bind_eq_some_iff.mp h
      have hsound := hvalue _ _ _ hv
      simp only at h
      split at h
      · obtain ⟨⟨vs', s'⟩, hvs, h⟩ := Option.bind_eq_some_iff.mp h
        obtain ⟨rfl, -⟩ := Prod.mk.inj (Option.some.inj h)
        exact ⟨hsound, ih _ _ _ hvs⟩
      · obtain ⟨rfl, -⟩ := Prod.mk.inj (Option.some.inj h)
        exact ⟨hsound, trivial⟩
      · cases h

theorem yields_separated? {α : Type} {item : List Char → Option (α × List Char)} {P : α → Prop}
    (hitem : Yields P item) (sep : Char) (fuel : Nat) :
    Yields (fun xs => ∀ x ∈ xs, P x) (separated? item sep fuel) := by
  intro cs
  induction fuel generalizing cs with
  | zero => simp [separated?]
  | succ fuel ih =>
    intro xs r h
    rw [separated?] at h
    obtain ⟨⟨x, s⟩, hx, h⟩ := Option.bind_eq_some_iff.mp h
    have hP := hitem _ _ _ hx
    simp only at h
    split at h
    · obtain ⟨rfl, -⟩ := Prod.mk.inj (Option.some.inj h)
      simpa using hP
    · split at h
      · obtain ⟨⟨xs', s'⟩, hxs, h⟩ := Option.bind_eq_some_iff.mp h
        obtain ⟨rfl, -⟩ := Prod.mk.inj (Option.some.inj h)
        exact List.forall_mem_cons.mpr ⟨hP, ih _ _ _ hxs⟩
      · obtain ⟨rfl, -⟩ := Prod.mk.inj (Option.some.inj h)
        simpa using hP

theorem yields_pair? (hvalue : Yields Value.Sound value) :
    Yields (fun p => p.2.Sound) (pair? value) := by
  intro cs p r h
  simp only [pair?, Option.bind_eq_bind, Option.bind_eq_some_iff, Option.pure_def,
    Option.some.injEq] at h
  obtain ⟨⟨path, s⟩, -, s', -, ⟨v, s''⟩, hv, heq⟩ := h
  obtain ⟨rfl, -⟩ := Prod.mk.inj heq
  exact hvalue _ _ _ hv

end values

section tables

variable {k : String} {n : Node} {es es' : Nodes}

namespace Nodes

/-- A growing table that can be written as it stands. -/
def Sound (es : Nodes) : Prop := (Value.table (entriesOf es)).Sound

theorem sound_iff : es.Sound ↔ (es.map (·.1)).Nodup ∧ ∀ e ∈ es, e.2.toValue.Sound := by
  rw [Sound, Value.Sound, Value.entriesSound_iff, entriesOf_eq_map, List.map_map,
    List.forall_mem_map]
  rfl

theorem mem_of_get? (h : get? k es = some n) : (k, n) ∈ es := by
  induction es with
  | nil => cases h
  | cons e es ih =>
    rw [get?] at h
    by_cases he : e.1 = k
    · rw [if_pos he] at h
      obtain rfl := Option.some.inj h
      simp [← he]
    · rw [if_neg he] at h
      exact List.mem_cons_of_mem e (ih h)

theorem keys_replace : (replace k n es).map (·.1) = es.map (·.1) := by
  induction es with
  | nil => rfl
  | cons e es ih =>
    rw [replace]
    split
    · simp_all
    · simp [ih]

theorem mem_replace {e : String × Node} (h : e ∈ replace k n es) : e = (k, n) ∨ e ∈ es := by
  induction es with
  | nil => exact Or.inr h
  | cons f es ih =>
    rw [replace] at h
    split at h
    · exact (List.mem_cons.mp h).imp_right (List.mem_cons_of_mem f)
    · rcases List.mem_cons.mp h with rfl | h
      · exact Or.inr List.mem_cons_self
      · exact (ih h).imp_right (List.mem_cons_of_mem f)

theorem get?_remove : get? k (remove k es) = none := by
  rw [get?_eq_none_iff]
  simp [remove]

namespace Sound

theorem nil : Sound [] := sound_iff.mpr (by simp)

theorem of_get? (h : es.Sound) (hk : get? k es = some n) : n.toValue.Sound :=
  (sound_iff.mp h).2 _ (mem_of_get? hk)

theorem append (h : es.Sound) (hk : get? k es = none) (hn : n.toValue.Sound) :
    Sound (es ++ [(k, n)]) := by
  obtain ⟨hkeys, hvalues⟩ := sound_iff.mp h
  have hnew := get?_eq_none_iff.mp hk
  refine sound_iff.mpr ⟨?_, fun e he => ?_⟩
  · rw [List.map_append, List.nodup_append]
    refine ⟨hkeys, by simp, fun a ha b hb => ?_⟩
    rintro rfl
    simp_all
  · rcases List.mem_append.mp he with he | he
    · exact hvalues e he
    · obtain rfl := List.mem_singleton.mp he
      exact hn

theorem replace (h : es.Sound) (hn : n.toValue.Sound) : Sound (replace k n es) := by
  obtain ⟨hkeys, hvalues⟩ := sound_iff.mp h
  refine sound_iff.mpr ⟨by rwa [keys_replace], fun e he => ?_⟩
  rcases mem_replace he with rfl | he
  · exact hn
  · exact hvalues e he

theorem remove (h : es.Sound) : Sound (remove k es) := by
  obtain ⟨hkeys, hvalues⟩ := sound_iff.mp h
  exact sound_iff.mpr
    ⟨hkeys.sublist (List.filter_sublist.map _), fun e he => hvalues e (List.mem_filter.mp he).1⟩

theorem last_of_tables {earlier : List Value} {last : Nodes}
    (h : (Node.tables earlier last).toValue.Sound) :
    (∀ x ∈ earlier, x.Sound) ∧ Sound last := by
  rw [Node.toValue, Value.Sound, Value.elementsSound_iff, List.forall_mem_append] at h
  exact ⟨h.1, h.2 _ List.mem_cons_self⟩

theorem tables {earlier : List Value} {last : Nodes} (hearlier : ∀ x ∈ earlier, x.Sound)
    (hlast : Sound last) :
    (Node.tables earlier last).toValue.Sound := by
  rw [Node.toValue, Value.Sound, Value.elementsSound_iff, List.forall_mem_append]
  exact ⟨hearlier, List.forall_mem_singleton.mpr hlast⟩

/-- A change that keeps tables sound may be made behind any path. -/
theorem edit {dotted : Bool} {f : Origin → Nodes → Option Nodes}
    (hf : ∀ origin es es', Sound es → f origin es = some es' → Sound es') {path : List String}
    {origin : Origin} (h : es.Sound) (hedit : Nodes.edit dotted f path origin es = some es') :
    es'.Sound := by
  induction path generalizing origin es es' with
  | nil => exact hf origin es es' h hedit
  | cons k path ih =>
    rw [Nodes.edit] at hedit
    rcases hk : Nodes.get? k es with _ | v | ⟨o, inner⟩ | ⟨earlier, last⟩ <;> simp only [hk] at hedit
    · obtain ⟨inner, hinner, heq⟩ := Option.bind_eq_some_iff.mp hedit
      obtain rfl := Option.some.inj heq
      exact h.append hk (ih nil hinner)
    · cases hedit
    · have hedit : ((Nodes.edit dotted f path o inner).bind fun inner =>
          some (Nodes.replace k (.table o inner) es)) =
          some es' := by
        split at hedit
        · cases hedit
        · exact hedit
      obtain ⟨inner', hinner, heq⟩ := Option.bind_eq_some_iff.mp hedit
      obtain rfl := Option.some.inj heq
      exact h.replace (ih (h.of_get? hk) hinner)
    · obtain ⟨last', hlast, heq⟩ := Option.bind_eq_some_iff.mp hedit
      obtain rfl := Option.some.inj heq
      obtain ⟨hearlier, hlast'⟩ := last_of_tables (h.of_get? hk)
      exact h.replace (tables hearlier (ih hlast' hlast))

theorem addPair {p : KeyPath × Value} (hp : p.2.Sound) (h : es.Sound)
    (hadd : es.addPair p = some es') : es'.Sound := by
  refine h.edit (fun origin fs fs' hfs hnew => ?_) hadd
  simp only [addNew, Option.ite_none_left_eq_some, Option.some.injEq] at hnew
  obtain ⟨-, hk, rfl⟩ := hnew
  exact hfs.append (by simpa using hk) hp

theorem addPairs {ps : List (KeyPath × Value)} (hps : ∀ p ∈ ps, p.2.Sound) (h : es.Sound)
    (hadd : es.addPairs ps = some es') : es'.Sound := by
  induction ps generalizing es with
  | nil =>
    obtain rfl := Option.some.inj hadd
    exact h
  | cons p ps ih =>
    obtain ⟨hp, hps⟩ := List.forall_mem_cons.mp hps
    rw [Nodes.addPairs, List.foldlM_cons] at hadd
    obtain ⟨fs, hfs, hadd⟩ := Option.bind_eq_some_iff.mp hadd
    exact ih hps (h.addPair hp hfs) hadd

theorem openTable {ps : List (KeyPath × Value)} (hps : ∀ p ∈ ps, p.2.Sound) (h : es.Sound)
    (hopen : Nodes.openTable k ps es = some es') : es'.Sound := by
  rw [Nodes.openTable] at hopen
  rcases hk : Nodes.get? k es with _ | v | ⟨origin, inner⟩ | ⟨earlier, last⟩
  · simp only [hk] at hopen
    obtain ⟨body, hbody, heq⟩ := Option.bind_eq_some_iff.mp hopen
    obtain rfl := Option.some.inj heq
    exact h.append hk (nil.addPairs hps hbody)
  · simp [hk] at hopen
  · cases origin with
    | implied =>
      simp only [hk] at hopen
      obtain ⟨body, hbody, heq⟩ := Option.bind_eq_some_iff.mp hopen
      obtain rfl := Option.some.inj heq
      have hinner : Sound inner := h.of_get? hk
      exact h.remove.append get?_remove (hinner.addPairs hps hbody)
    | explicit => simp [hk] at hopen
    | dotted => simp [hk] at hopen
  · simp [hk] at hopen

theorem appendTable {ps : List (KeyPath × Value)} (hps : ∀ p ∈ ps, p.2.Sound) (h : es.Sound)
    (happend : Nodes.appendTable k ps es = some es') : es'.Sound := by
  obtain ⟨body, hbody, happend⟩ := Option.bind_eq_some_iff.mp happend
  have hsound : Sound body := nil.addPairs hps hbody
  rcases hk : Nodes.get? k es with _ | v | ⟨origin, inner⟩ | ⟨earlier, last⟩ <;> simp only [hk] at happend
  · obtain rfl := Option.some.inj happend
    exact h.append hk (tables (by simp) hsound)
  · cases happend
  · cases happend
  · obtain rfl := Option.some.inj happend
    obtain ⟨hearlier, hlast⟩ := last_of_tables (h.of_get? hk)
    refine h.replace (tables (fun x hx => ?_) hsound)
    rcases List.mem_append.mp hx with hx | hx
    · exact hearlier x hx
    · obtain rfl := List.mem_singleton.mp hx
      exact hlast

theorem addTo {s : Section} (hs : ∀ p ∈ s.pairs, p.2.Sound) (h : es.Sound)
    (hadd : s.addTo es = some es') :
    es'.Sound := by
  refine h.edit (fun origin fs fs' hfs hchange => ?_) hadd
  split at hchange
  · exact hfs.appendTable hs hchange
  · exact hfs.openTable hs hchange

end Sound

end Nodes

end tables

theorem yields_inline? {value : ReadValue} (hvalue : Yields Value.Sound value) :
    Yields Value.Sound (inline? value) := by
  intro cs v r h
  rw [inline?] at h
  split at h
  · obtain ⟨rfl, -⟩ := Prod.mk.inj (Option.some.inj h)
    exact Nodes.Sound.nil
  · simp only [inlineTable?, Option.bind_eq_bind, Option.bind_eq_some_iff, Option.pure_def,
      Option.some.injEq] at h
    obtain ⟨⟨ps, s⟩, hps, w, ⟨es, hes, rfl⟩, s', -, heq⟩ := h
    obtain ⟨rfl, -⟩ := Prod.mk.inj heq
    exact Nodes.Sound.nil.addPairs (yields_separated? (yields_pair? hvalue) _ _ _ _ _ hps) hes

theorem yields_value? (depth : Nat) : Yields Value.Sound (value? depth) := by
  induction depth with
  | zero => exact yields_flat?
  | succ depth ih =>
    intro cs v r h
    rw [value?.eq_def] at h
    simp only at h
    split at h
    · simp only [Option.map_eq_some_iff, Prod.mk.injEq] at h
      obtain ⟨⟨vs, s⟩, hvs, rfl, -⟩ := h
      exact yields_elements? ih _ _ _ _ hvs
    · exact yields_inline? ih _ _ _ h
    · exact yields_flat? _ _ _ h

def Line.Sound : Line → Prop
  | .pair p => p.2.Sound
  | .header _ _ => True

theorem yields_header? : Yields Line.Sound header? := by
  intro cs line r h
  unfold header? at h
  split at h
  all_goals
    simp only [Option.bind_eq_bind, Option.bind_eq_some_iff, Option.pure_def,
      Option.some.injEq] at h
  · obtain ⟨⟨path, s⟩, -, s₁, -, s₂, -, s₃, -, heq⟩ := h
    obtain ⟨rfl, -⟩ := Prod.mk.inj heq
    trivial
  · obtain ⟨⟨path, s⟩, -, s₁, -, s₂, -, heq⟩ := h
    obtain ⟨rfl, -⟩ := Prod.mk.inj heq
    trivial

theorem yields_pairLine? : Yields Line.Sound pairLine? := by
  intro cs line r h
  simp only [pairLine?, Option.bind_eq_bind, Option.bind_eq_some_iff, Option.pure_def,
    Option.some.injEq] at h
  obtain ⟨⟨p, s⟩, hp, s', -, heq⟩ := h
  obtain ⟨rfl, -⟩ := Prod.mk.inj heq
  exact yields_pair? (yields_value? _) _ _ _ hp

theorem sound_of_lines? {fuel : Nat} {cs : List Char} {ls : List Line}
    (h : lines? fuel cs = some ls) :
    ∀ l ∈ ls, l.Sound := by
  induction fuel generalizing cs ls with
  | zero => cases h
  | succ fuel ih =>
    rw [lines?] at h
    split at h
    · obtain rfl := Option.some.inj h
      simp
    · obtain ⟨⟨l, r⟩, hl, h⟩ := Option.bind_eq_some_iff.mp h
      obtain ⟨ls', hls, h⟩ := Option.bind_eq_some_iff.mp h
      obtain rfl := Option.some.inj h
      exact List.forall_mem_cons.mpr ⟨yields_header? _ _ _ hl, ih hls⟩
    · split at h
      · obtain ⟨r, -, h⟩ := Option.bind_eq_some_iff.mp h
        exact ih h
      · obtain ⟨⟨l, r⟩, hl, h⟩ := Option.bind_eq_some_iff.mp h
        obtain ⟨ls', hls, h⟩ := Option.bind_eq_some_iff.mp h
        obtain rfl := Option.some.inj h
        exact List.forall_mem_cons.mpr ⟨yields_pairLine? _ _ _ hl, ih hls⟩

theorem sound_sections {ls : List Line} (h : ∀ l ∈ ls, l.Sound) :
    (∀ p ∈ (sections ls).1, p.2.Sound) ∧ ∀ s ∈ (sections ls).2, ∀ p ∈ s.pairs, p.2.Sound := by
  induction ls with
  | nil => simp [sections]
  | cons l ls ih =>
    obtain ⟨hl, hls⟩ := List.forall_mem_cons.mp h
    obtain ⟨hpairs, hrest⟩ := ih hls
    cases l with
    | pair p => exact ⟨List.forall_mem_cons.mpr ⟨hl, hpairs⟩, hrest⟩
    | header path repeated => exact ⟨by simp [sections], List.forall_mem_cons.mpr ⟨hpairs, hrest⟩⟩

theorem Nodes.Sound.addSections {ss : List Section} (hss : ∀ s ∈ ss, ∀ p ∈ s.pairs, p.2.Sound)
    {es es' : Nodes} (h : es.Sound) (hadd : ss.foldlM Section.addTo es = some es') : es'.Sound := by
  induction ss generalizing es with
  | nil =>
    obtain rfl := Option.some.inj hadd
    exact h
  | cons s ss ih =>
    obtain ⟨hs, hss⟩ := List.forall_mem_cons.mp hss
    rw [List.foldlM_cons] at hadd
    obtain ⟨fs, hfs, hadd⟩ := Option.bind_eq_some_iff.mp hadd
    exact ih hss (h.addTo hs hfs) hadd

theorem sound_of_read? {text : String} {es : Entries} (h : read? text = some es) :
    (Value.table es).Sound := by
  simp only [read?, tableOf?, Option.bind_eq_bind, Option.bind_eq_some_iff, Option.pure_def,
    Option.some.injEq] at h
  obtain ⟨ls, hls, root, hroot, all, hall, rfl⟩ := h
  obtain ⟨hpairs, hsections⟩ := sound_sections (sound_of_lines? hls)
  exact (Nodes.Sound.nil.addPairs hpairs hroot).addSections hsections hall

end SlotBuild.Toml
