import Mathlib.Data.List.Forall2
import SlotBuild.Proofs.Failure
import SlotBuild.Proofs.Fingerprint

/-! Derivations: how the records that a task reads have come about, back to what was supplied. The
input fingerprint of a task is the same for the same derivations in any order, and two that differ
only share one if two octet strings that are hashed for them collide. -/

namespace SlotBuild

/-- What is recorded in a slot was supplied, or a task has made it from inputs of its own. -/
inductive Derivation where
  | supplied (slot content : String)
  | produced (task config slot content : String) (inputs : List Derivation)

/-- `r` records what `d` tells of: a record that was made has the input fingerprint of a task that
counts all its inputs, which are recorded in turn. -/
inductive Record.Tells : Record → Derivation → Prop where
  | supplied {r : Record} (source : r.inputFingerprint = none) :
      Tells r (.supplied r.slot r.fingerprint)
  | produced {r : Record} {t : Task} {rs : List Record} {ds : List Derivation} (counts : t.filter = .all)
      (inputs : List.Forall₂ Tells rs ds)
      (run : r.inputFingerprint = some (Fingerprint.ofInputs t rs)) :
      Tells r (.produced t.id t.configDigest r.slot r.fingerprint ds)

namespace Derivation

def slot : Derivation → String
  | supplied slot _ => slot
  | produced _ _ slot _ _ => slot

def content : Derivation → String
  | supplied _ content => content
  | produced _ _ _ content _ => content

/-- The input fingerprint of the run that made it; for a supply there is none. -/
def upstream : Derivation → String
  | supplied _ _ => ""
  | produced task config _ _ inputs =>
    Fingerprint.combine task config
      (inputs.map fun d => Digest.ofParts [d.slot, d.content, d.upstream])

def octets (d : Derivation) : Bytes := Digest.encodeParts [d.slot, d.content, d.upstream]

def digest (d : Derivation) : String := Digest.ofBytes d.octets

/-- What is hashed for a task with these inputs, the octets for the inputs themselves apart. -/
def combined (task config : String) (inputs : List Derivation) : List Bytes :=
  [Fingerprint.combinedBytes task config (inputs.map digest),
    Digest.encodeParts (Digest.sortedParts (inputs.map digest))]

/-- Every octet string that is hashed for `d`, through all that it was derived from. -/
def hashed : Derivation → List Bytes
  | supplied slot content => [octets (supplied slot content)]
  | produced task config slot content inputs =>
    octets (produced task config slot content inputs) :: combined task config inputs ++
      inputs.flatMap hashed

/-- Every text that `d` names. -/
def texts : Derivation → List String
  | supplied slot content => [slot, content]
  | produced task config slot content inputs => [task, config, slot, content] ++ inputs.flatMap texts

/-- The same derivation up to the order of the inputs, at every depth. -/
inductive Alike : Derivation → Derivation → Prop where
  | supplied (slot content : String) : Alike (supplied slot content) (supplied slot content)
  | produced {task config slot content : String} {ds es fs : List Derivation}
      (pairs : List.Forall₂ Alike ds fs) (order : fs.Perm es) :
      Alike (produced task config slot content ds) (produced task config slot content es)

/-- The same derivations in any order, each up to the order of its inputs. -/
def AllAlike (ds es : List Derivation) : Prop := ∃ fs, List.Forall₂ Alike ds fs ∧ fs.Perm es

/-- The derivations that count towards the input fingerprint of `t`. -/
def counted (t : Task) (ds : List Derivation) : List Derivation :=
  ds.filter fun d => t.filter.includes d.slot

theorem induction {motive : Derivation → Prop} (supplied : ∀ s c, motive (supplied s c))
    (produced : ∀ t cfg s c ds, (∀ d ∈ ds, motive d) → motive (produced t cfg s c ds)) :
    ∀ d, motive d
  | .supplied s c => supplied s c
  | .produced t cfg s c ds => produced t cfg s c ds fun d _ => induction supplied produced d

variable {d e : Derivation} {ds es : List Derivation}

theorem upstream_produced (task config slot content : String) (ds : List Derivation) :
    (produced task config slot content ds).upstream = Fingerprint.combine task config (ds.map digest) := by
  rw [upstream]
  rfl

theorem Alike.refl (d : Derivation) : Alike d d := by
  induction d using induction with
  | supplied slot content => exact .supplied slot content
  | produced task config slot content ds ih =>
    exact .produced (List.forall₂_same.mpr ih) (List.Perm.refl ds)

theorem AllAlike.of_perm (h : ds.Perm es) : AllAlike ds es :=
  ⟨ds, List.forall₂_same.mpr fun d _ => .refl d, h⟩

theorem AllAlike.digests_perm (h : AllAlike ds es) (hd : ∀ d ∈ ds, ∀ e, Alike d e → d.digest = e.digest) :
    (ds.map digest).Perm (es.map digest) := by
  obtain ⟨fs, hfs, hperm⟩ := h
  have hsame : ds.map digest = fs.map digest :=
    map_eq_of_forall₂ (List.forall₂_same.mpr fun d _ => rfl) hfs fun d hdm y z hy hz => hy ▸ hd d hdm z hz
  rw [hsame]
  exact hperm.map digest

theorem Alike.digest_eq (h : Alike d e) : d.digest = e.digest := by
  induction d using induction generalizing e with
  | supplied slot content =>
    cases h
    rfl
  | produced task config slot content ds ih =>
    cases h with
    | @produced _ _ _ _ _ es fs pairs order =>
      have hdigests := AllAlike.digests_perm ⟨fs, pairs, order⟩ fun d hd e he => ih d hd he
      have hupstream : (Derivation.produced task config slot content ds).upstream =
          (Derivation.produced task config slot content es).upstream := by
        rw [upstream_produced, upstream_produced, Fingerprint.combine_congr hdigests]
      rw [digest, digest, octets, octets, hupstream]
      rfl

theorem upstream_supplied_ne {slot content task config slot' content' : String} {ds : List Derivation} :
    (supplied slot content).upstream ≠ (produced task config slot' content' ds).upstream := by
  intro h
  have hlen : (Bytes.ofString (produced task config slot' content' ds).upstream).length = 64 := by
    rw [upstream_produced]
    exact (Digest.isDigest_ofParts _).length
  rw [← h, upstream] at hlen
  simp [Bytes.ofString] at hlen

theorem fits_upstream (d : Derivation) : Digest.Fits d.upstream := by
  cases d with
  | supplied slot content =>
    rw [upstream]
    decide
  | produced task config slot content ds =>
    rw [upstream_produced]
    exact (Digest.isDigest_ofParts _).fits

theorem octets_inj (hd : ∀ x ∈ d.texts, Digest.Fits x) (he : ∀ x ∈ e.texts, Digest.Fits x)
    (h : d.octets = e.octets) : d.slot = e.slot ∧ d.content = e.content ∧ d.upstream = e.upstream := by
  have hparts : ∀ {f : Derivation}, (∀ x ∈ f.texts, Digest.Fits x) →
      ∀ x ∈ [f.slot, f.content, f.upstream], Digest.Fits x := by
    intro f hf x hx
    simp only [List.mem_cons, List.not_mem_nil, or_false] at hx
    rcases hx with rfl | rfl | rfl
    · exact hf _ (by cases f <;> simp [texts, slot])
    · exact hf _ (by cases f <;> simp [texts, content])
    · exact f.fits_upstream
  simpa using Digest.encodeParts_inj (hparts hd) (hparts he) h

theorem combine_inj {S : Set Bytes} (hfree : Digest.CollisionFree S) {task config task' config' : String}
    (htexts : ∀ x ∈ [task, config, task', config'], Digest.Fits x)
    (hds : ∀ b ∈ combined task config ds, b ∈ S) (hes : ∀ b ∈ combined task' config' es, b ∈ S)
    (halike : ∀ d ∈ ds, ∀ e ∈ es, d.digest = e.digest → Alike d e)
    (h : Fingerprint.combine task config (ds.map digest) =
      Fingerprint.combine task' config' (es.map digest)) :
    task = task' ∧ config = config' ∧ AllAlike ds es := by
  have hbytes : Fingerprint.combinedBytes task config (ds.map digest) =
      Fingerprint.combinedBytes task' config' (es.map digest) :=
    hfree (hds _ (by simp [combined])) (hes _ (by simp [combined])) h
  have hparts : ∀ {t c : String} {digests : List String}, Digest.Fits t → Digest.Fits c →
      ∀ x ∈ ["kiln-inputs-v1", t, c, Digest.ofUnordered digests], Digest.Fits x := by
    intro t c digests ht hc x hx
    simp only [List.mem_cons, List.not_mem_nil, or_false] at hx
    rcases hx with rfl | rfl | rfl | rfl
    · decide
    · exact ht
    · exact hc
    · exact (Digest.isDigest_ofParts _).fits
  have hlists := Digest.encodeParts_inj (hparts (htexts task (by simp)) (htexts config (by simp)))
    (hparts (htexts task' (by simp)) (htexts config' (by simp))) hbytes
  obtain ⟨htask, hconfig, hdigests⟩ : task = task' ∧ config = config' ∧
      Digest.ofUnordered (ds.map digest) = Digest.ofUnordered (es.map digest) := by simpa using hlists
  have hdigest : ∀ {fs : List Derivation}, ∀ x ∈ fs.map digest, Digest.IsDigest x := by
    intro fs x hx
    obtain ⟨f, -, rfl⟩ := List.mem_map.mp hx
    exact ⟨_, rfl⟩
  have hperm := Digest.perm_of_ofUnordered_eq hfree hdigest hdigest (hds _ (by simp [combined]))
    (hes _ (by simp [combined])) hdigests
  exact ⟨htask, hconfig, exists_forall₂_of_map_perm halike hperm⟩

theorem alike_of_digest_eq {S : Set Bytes} (hfree : Digest.CollisionFree S)
    (hd : ∀ x ∈ d.texts, Digest.Fits x) (he : ∀ x ∈ e.texts, Digest.Fits x)
    (hdS : ∀ b ∈ d.hashed, b ∈ S) (heS : ∀ b ∈ e.hashed, b ∈ S) (h : d.digest = e.digest) : Alike d e := by
  induction d using induction generalizing e with
  | supplied slot content =>
    have hoctets := hfree (hdS _ (by simp [hashed])) (heS _ (by cases e <;> simp [hashed])) h
    obtain ⟨hslot, hcontent, hupstream⟩ := octets_inj hd he hoctets
    cases e with
    | supplied slot' content' =>
      obtain rfl : slot = slot' := hslot
      obtain rfl : content = content' := hcontent
      exact .supplied slot content
    | produced _ _ _ _ _ => exact absurd hupstream upstream_supplied_ne
  | produced task config slot content ds ih =>
    have hoctets := hfree (hdS _ (by simp [hashed])) (heS _ (by cases e <;> simp [hashed])) h
    obtain ⟨hslot, hcontent, hupstream⟩ := octets_inj hd he hoctets
    cases e with
    | supplied _ _ => exact absurd hupstream.symm upstream_supplied_ne
    | produced task' config' slot' content' es =>
      obtain rfl : slot = slot' := hslot
      obtain rfl : content = content' := hcontent
      rw [upstream_produced, upstream_produced] at hupstream
      have halike : ∀ d ∈ ds, ∀ e ∈ es, d.digest = e.digest → Alike d e := by
        intro d hdm e hem
        refine ih d hdm (fun x hx => hd x ?_) (fun x hx => he x ?_) (fun b hb => hdS b ?_)
          (fun b hb => heS b ?_)
        · rw [texts]
          exact List.mem_append_right _ (List.mem_flatMap.mpr ⟨d, hdm, hx⟩)
        · rw [texts]
          exact List.mem_append_right _ (List.mem_flatMap.mpr ⟨e, hem, hx⟩)
        · rw [hashed]
          exact List.mem_append_right _ (List.mem_flatMap.mpr ⟨d, hdm, hb⟩)
        · rw [hashed]
          exact List.mem_append_right _ (List.mem_flatMap.mpr ⟨e, hem, hb⟩)
      have htexts : ∀ x ∈ [task, config, task', config'], Digest.Fits x := by
        intro x hx
        simp only [List.mem_cons, List.not_mem_nil, or_false] at hx
        rcases hx with rfl | rfl | rfl | rfl
        · exact hd _ (by simp [texts])
        · exact hd _ (by simp [texts])
        · exact he _ (by simp [texts])
        · exact he _ (by simp [texts])
      obtain ⟨rfl, rfl, fs, hfs, hperm⟩ := combine_inj hfree htexts
        (fun b hb => hdS b (by rw [hashed]; simp [hb])) (fun b hb => heS b (by rw [hashed]; simp [hb]))
        halike hupstream
      exact .produced hfs hperm

end Derivation

namespace Record

theorem map_ofRecord_eq {rs : List Record} {ds : List Derivation} (h : List.Forall₂ Tells rs ds)
    (hds : ∀ d ∈ ds, ∀ r, r.Tells d → Fingerprint.ofRecord r = d.digest) :
    rs.map Fingerprint.ofRecord = ds.map Derivation.digest := by
  induction h with
  | nil => rfl
  | @cons r d rs ds hrd _ ih =>
    have hhead := hds d List.mem_cons_self r hrd
    have htail := ih fun d' hd' => hds d' (List.mem_cons_of_mem d hd')
    rw [List.map_cons, List.map_cons, hhead, htail]

theorem Tells.ofRecord_eq {r : Record} {d : Derivation} (h : r.Tells d) :
    Fingerprint.ofRecord r = d.digest := by
  induction d using Derivation.induction generalizing r with
  | supplied slot content =>
    cases h with
    | supplied source =>
      rw [Fingerprint.ofRecord, source, Derivation.digest, Derivation.octets, Derivation.upstream]
      rfl
  | produced task config slot content ds ih =>
    cases h with
    | @produced _ t rs _ counts inputs run =>
      have hall : rs.filter (fun r => t.filter.includes r.slot) = rs := by
        rw [counts]
        exact List.filter_eq_self.mpr fun _ _ => rfl
      have hdigests := map_ofRecord_eq inputs fun d hd r hr => ih d hd hr
      have hupstream : r.inputFingerprint.getD "" =
          (Derivation.produced t.id t.configDigest r.slot r.fingerprint ds).upstream := by
        rw [run, Option.getD_some, Fingerprint.ofInputs, hall, hdigests, Derivation.upstream_produced]
      rw [Fingerprint.ofRecord, hupstream]
      rfl

theorem Tells.slot_eq {r : Record} {d : Derivation} (h : r.Tells d) : r.slot = d.slot := by
  cases h <;> rfl

end Record

namespace Derivation

variable {ds es : List Derivation} {t u : Task} {rs ss : List Record}

theorem ofInputs_eq (h : List.Forall₂ Record.Tells rs ds) :
    Fingerprint.ofInputs t rs = Fingerprint.combine t.id t.configDigest ((counted t ds).map digest) := by
  have hcounted : List.Forall₂ Record.Tells (rs.filter fun r => t.filter.includes r.slot) (counted t ds) :=
    List.rel_filter (fun r d hrd => by simp only [hrd.slot_eq]) h
  rw [Fingerprint.ofInputs, Record.map_ofRecord_eq hcounted fun d _ r hr => hr.ofRecord_eq]

theorem ofInputs_eq_of_allAlike (hrs : List.Forall₂ Record.Tells rs ds)
    (hss : List.Forall₂ Record.Tells ss es)
    (hid : t.id = u.id) (hconfig : t.configDigest = u.configDigest)
    (h : AllAlike (counted t ds) (counted u es)) : Fingerprint.ofInputs t rs = Fingerprint.ofInputs u ss := by
  have hdigests := h.digests_perm fun d _ e he => he.digest_eq
  rw [ofInputs_eq hrs, ofInputs_eq hss, hid, hconfig, Fingerprint.combine_congr hdigests]

/-- Every text that goes into the input fingerprint of `t`, through all that its inputs were derived
from. -/
def textsFor (t : Task) (ds : List Derivation) : List String :=
  [t.id, t.configDigest] ++ (counted t ds).flatMap texts

/-- Every octet string that is hashed for the input fingerprint of `t`, at any depth. -/
def hashedFor (t : Task) (ds : List Derivation) : List Bytes :=
  combined t.id t.configDigest (counted t ds) ++ (counted t ds).flatMap hashed

theorem allAlike_of_ofInputs_eq {S : Set Bytes} (hfree : Digest.CollisionFree S)
    (hrs : List.Forall₂ Record.Tells rs ds) (hss : List.Forall₂ Record.Tells ss es)
    (ht : ∀ x ∈ textsFor t ds, Digest.Fits x) (hu : ∀ x ∈ textsFor u es, Digest.Fits x)
    (htS : ∀ b ∈ hashedFor t ds, b ∈ S) (huS : ∀ b ∈ hashedFor u es, b ∈ S)
    (h : Fingerprint.ofInputs t rs = Fingerprint.ofInputs u ss) :
    t.id = u.id ∧ t.configDigest = u.configDigest ∧ AllAlike (counted t ds) (counted u es) := by
  rw [ofInputs_eq hrs, ofInputs_eq hss] at h
  refine combine_inj hfree (fun x hx => ?_) (fun b hb => htS b (List.mem_append_left _ hb))
    (fun b hb => huS b (List.mem_append_left _ hb)) (fun d hd e he heq => ?_) h
  · simp only [List.mem_cons, List.not_mem_nil, or_false] at hx
    rcases hx with rfl | rfl | rfl | rfl
    · exact ht _ (by simp [textsFor])
    · exact ht _ (by simp [textsFor])
    · exact hu _ (by simp [textsFor])
    · exact hu _ (by simp [textsFor])
  · refine alike_of_digest_eq hfree (fun x hx => ht x ?_) (fun x hx => hu x ?_) (fun b hb => htS b ?_)
      (fun b hb => huS b ?_) heq
    · exact List.mem_append_right _ (List.mem_flatMap.mpr ⟨d, hd, hx⟩)
    · exact List.mem_append_right _ (List.mem_flatMap.mpr ⟨e, he, hx⟩)
    · exact List.mem_append_right _ (List.mem_flatMap.mpr ⟨d, hd, hb⟩)
    · exact List.mem_append_right _ (List.mem_flatMap.mpr ⟨e, he, hb⟩)

/-- An input fingerprint is the same for the same task, configuration and inputs in any order. Where
two are the same, so are these, through everything that the inputs were derived from, unless two of
the octet strings that were hashed collide. Inputs that a task does not count play no part. -/
theorem ofInputs_identifies (hrs : List.Forall₂ Record.Tells rs ds) (hss : List.Forall₂ Record.Tells ss es)
    (ht : ∀ x ∈ textsFor t ds, Digest.Fits x) (hu : ∀ x ∈ textsFor u es, Digest.Fits x) :
    (t.id = u.id → t.configDigest = u.configDigest → (counted t ds).Perm (counted u es) →
      Fingerprint.ofInputs t rs = Fingerprint.ofInputs u ss) ∧
    (Fingerprint.ofInputs t rs = Fingerprint.ofInputs u ss →
      (t.id = u.id ∧ t.configDigest = u.configDigest ∧ AllAlike (counted t ds) (counted u es)) ∨
        ∃ a ∈ hashedFor t ds ++ hashedFor u es, ∃ b ∈ hashedFor t ds ++ hashedFor u es,
          a ≠ b ∧ Sha256.digest a = Sha256.digest b) := by
  constructor
  · exact fun hid hconfig hperm => ofInputs_eq_of_allAlike hrs hss hid hconfig (.of_perm hperm)
  · intro heq
    by_cases hfree : Digest.CollisionFree {b | b ∈ hashedFor t ds ++ hashedFor u es}
    · exact Or.inl (allAlike_of_ofInputs_eq hfree hrs hss ht hu (fun b hb => List.mem_append_left _ hb)
        (fun b hb => List.mem_append_right _ hb) heq)
    · right
      simp only [Digest.CollisionFree, Set.InjOn, not_forall] at hfree
      obtain ⟨a, ha, b, hb, hab, hne⟩ := hfree
      exact ⟨a, ha, b, hb, hne, Bytes.toHex_injective hab⟩

/-! A source file, what is compiled from it, what is linked from both, and a task that ships that. -/

def source (content : String) : Derivation := .supplied "src" content

def object (content : String) : Derivation := .produced "compile" "2b" "obj" "3c" [source content]

def program (content : String) : Derivation :=
  .produced "link" "4d" "app" "5e" [source content, object content]

def passive (id : TaskId) (configDigest : String) : Task :=
  { Task.make id fun _ w => (.failed "no", w) with configDigest }

def compile : Task := (passive "compile" "2b").withInput "src"

def link : Task := (passive "link" "4d").withInputs ["src", "obj"]

def ship : Task := (passive "ship" "6f").withInputs ["src", "app"]

def sourceRecord (content : String) : Record := ⟨"src", [], content, none, none, 0⟩

def objectRecord (content : String) : Record :=
  ⟨"obj", [], "3c", some (Fingerprint.ofInputs compile [sourceRecord content]), some "compile", 0⟩

def programRecord (content : String) : Record :=
  ⟨"app", [], "5e", some (Fingerprint.ofInputs link [sourceRecord content, objectRecord content]),
    some "link", 0⟩

theorem sourceRecord_tells (content : String) : (sourceRecord content).Tells (source content) :=
  .supplied rfl

theorem programRecord_tells (content : String) : (programRecord content).Tells (program content) := by
  have hobject : (objectRecord content).Tells (object content) :=
    .produced (t := compile) rfl (.cons (sourceRecord_tells content) .nil) rfl
  exact .produced (t := link) rfl (.cons (sourceRecord_tells content) (.cons hobject .nil)) rfl

theorem not_alike_program : ¬ Alike (program "1a") (program "1b") := by
  intro h
  cases h with
  | produced pairs order =>
    cases pairs with
    | cons hsource _ =>
      cases hsource
      have hmem := order.mem_iff.mp List.mem_cons_self
      simp [source, object] at hmem

theorem ship_fits {ds : List Derivation} (h : ∀ d ∈ ds, d ∈ [source "1a", program "1a", program "1b"]) :
    ∀ x ∈ textsFor ship ds, Digest.Fits x := by
  have hall : ∀ d ∈ [source "1a", program "1a", program "1b"], ∀ x ∈ d.texts, Digest.Fits x := by
    simp only [source, object, program, texts, List.flatMap_cons, List.flatMap_nil, List.forall_mem_cons]
    decide
  have hown : ∀ x ∈ [ship.id, ship.configDigest], Digest.Fits x := by decide
  intro x hx
  rcases List.mem_append.mp hx with hx | hx
  · exact hown x hx
  · obtain ⟨d, hd, hx⟩ := List.mem_flatMap.mp hx
    exact hall d (h d (List.mem_of_mem_filter hd)) x hx

/-- The order of the inputs does not count. What the program was made from does, though its content
is the same. -/
theorem ship_ofInputs :
    List.Forall₂ Record.Tells [sourceRecord "1a", programRecord "1a"] [source "1a", program "1a"] ∧
    List.Forall₂ Record.Tells [programRecord "1b", sourceRecord "1a"] [program "1b", source "1a"] ∧
    Fingerprint.ofInputs ship [sourceRecord "1a", programRecord "1a"] =
      Fingerprint.ofInputs ship [programRecord "1a", sourceRecord "1a"] ∧
    (programRecord "1a").fingerprint = (programRecord "1b").fingerprint ∧
    (Fingerprint.ofInputs ship [sourceRecord "1a", programRecord "1a"] =
        Fingerprint.ofInputs ship [programRecord "1b", sourceRecord "1a"] →
      ∃ a ∈ hashedFor ship [source "1a", program "1a"] ++ hashedFor ship [program "1b", source "1a"],
        ∃ b ∈ hashedFor ship [source "1a", program "1a"] ++ hashedFor ship [program "1b", source "1a"],
          a ≠ b ∧ Sha256.digest a = Sha256.digest b) := by
  have hforward : ∀ c, List.Forall₂ Record.Tells [sourceRecord "1a", programRecord c]
      [source "1a", program c] := fun c =>
    .cons (sourceRecord_tells "1a") (.cons (programRecord_tells c) .nil)
  have hbackward : ∀ c, List.Forall₂ Record.Tells [programRecord c, sourceRecord "1a"]
      [program c, source "1a"] := fun c =>
    .cons (programRecord_tells c) (.cons (sourceRecord_tells "1a") .nil)
  have hsame := (ofInputs_identifies (hforward "1a") (hbackward "1a") (ship_fits (by simp))
    (ship_fits (by simp))).1
  have hapart := (ofInputs_identifies (hforward "1a") (hbackward "1b") (ship_fits (by simp))
    (ship_fits (by simp))).2
  refine ⟨hforward "1a", hbackward "1b", hsame rfl rfl (.swap _ _ _), rfl, fun h => ?_⟩
  refine (hapart h).resolve_left ?_
  rintro ⟨-, -, fs, hfs, hperm⟩
  obtain ⟨d, hd, halike⟩ := exists_right_of_forall₂ hfs (program "1a") (.tail _ (.head _))
  have hd : d ∈ [program "1b", source "1a"] := hperm.mem_iff.mp hd
  simp only [List.mem_cons, List.not_mem_nil, or_false] at hd
  rcases hd with rfl | rfl
  · exact not_alike_program halike
  · cases halike

end Derivation
end SlotBuild
