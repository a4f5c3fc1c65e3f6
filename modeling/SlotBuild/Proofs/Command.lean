import SlotBuild.Command
import SlotBuild.Proofs.Failure
import SlotBuild.Proofs.Keyed

/-! What a command is started with and what it reports. All that counts of a slot in the name of its
variable are letters and digits, so two slots can share a variable, and then the later one has it. -/

namespace SlotBuild.Command

theorem conclude_reported {c : Command} {w left : World} {outputs : Keyed (List Path)}
    {x : Except AccessError Output × FileTree} (h : c.conclude w x = (.reported outputs, left)) :
    outputs = Keyed.ofList c.outputs := by
  obtain ⟨result, files⟩ := x
  cases result with
  | error e => simp [conclude] at h
  | ok o =>
    by_cases hsuccess : o.success = true
    · simp only [conclude, if_pos hsuccess, Prod.mk.injEq, ActionResult.reported.injEq] at h
      exact h.1.symm
    · simp [conclude, if_neg hsuccess] at h

theorem action_reported {c : Command} {call : Call} {w left : World} {outputs : Keyed (List Path)}
    (h : c.action call w = (.reported outputs, left)) : outputs = Keyed.ofList c.outputs := by
  unfold action at h
  cases hsetUp : c.setUp call w.cwd w.files with
  | mk result made =>
    rw [hsetUp] at h
    cases result with
    | error message => simp at h
    | ok env =>
      by_cases hcancelled : w.cancelled = true
      · simp [hcancelled] at h
      · simp only [hcancelled, Bool.false_eq_true, if_false] at h
        exact conclude_reported h

/-- The variable of a slot and its value. -/
def passed (start : String) (s : SlotId × List Path) : String × String :=
  (variableFor start s.1, ":".intercalate (s.2.map (·.text)))

variable {start : String} {slots : List (SlotId × List Path)} {vs : List (String × String)}

theorem joined_ok {ps : List Path} {v : String} (h : joined ps = .ok v) :
    v = ":".intercalate (ps.map (·.text)) := by
  unfold joined at h
  by_cases hseparator : (ps.any fun p => p.text.toList.contains ':') = true
  · simp only [if_pos hseparator, reduceCtorEq] at h
  · rw [if_neg hseparator] at h
    exact (Except.ok.inj h).symm

theorem pathVariables_ok (h : pathVariables start slots = .ok vs) : vs = slots.map (passed start) := by
  have hall : List.Forall₂ (fun s v => passed start s = v) slots vs := by
    refine (mapM_eq_ok.mp h).imp fun s v hv => ?_
    cases hj : joined s.2 with
    | error message => simp [hj, Except.map] at hv
    | ok value =>
      rw [hj] at hv
      rw [passed, ← joined_ok hj]
      exact Except.ok.inj hv
  have hmap := List.forall₂_map_left_iff.mpr hall
  exact (List.forall₂_eq_eq_eq ▸ hmap : slots.map (passed start) = vs).symm

theorem placeOutputs_ok {cwd : Key} {files made : FileTree}
    (h : placeOutputs cwd slots files = (.ok vs, made)) : vs = slots.map (passed "KILN_OUTPUT_") := by
  induction slots generalizing files vs with
  | nil =>
    simp only [placeOutputs, Prod.mk.injEq, Except.ok.injEq] at h
    exact h.1.symm
  | cons s slots ih =>
    obtain ⟨s, ps⟩ := s
    rw [placeOutputs] at h
    cases hj : joined ps with
    | error message => simp [hj] at h
    | ok value =>
      rw [hj] at h
      dsimp only at h
      cases hparents : ensureParents cwd ps files with
      | mk result files' =>
        rw [hparents] at h
        cases result with
        | error e => simp at h
        | ok _ =>
          dsimp only at h
          cases hrest : placeOutputs cwd slots files' with
          | mk result left =>
            rw [hrest] at h
            cases result with
            | error message => simp at h
            | ok vs' =>
              obtain ⟨rfl, rfl⟩ : _ ∧ left = made := by simpa using h
              rw [ih hrest, List.map_cons, passed, ← joined_ok hj]

theorem setUp_ok {c : Command} {call : Call} {cwd : Key} {files made : FileTree}
    {env : List (String × String)} (h : c.setUp call cwd files = (.ok env, made)) :
    env = c.env ++ ("KILN_TASK", call.task) :: call.inputs.map (passed "KILN_INPUT_") ++
      c.outputs.map (passed "KILN_OUTPUT_") := by
  unfold setUp at h
  cases hinputs : pathVariables "KILN_INPUT_" call.inputs with
  | error message => simp [hinputs] at h
  | ok inputs =>
    rw [hinputs] at h
    dsimp only at h
    cases houtputs : placeOutputs cwd c.outputs files with
    | mk result left =>
      rw [houtputs] at h
      cases result with
      | error message => simp at h
      | ok outputs =>
        simp only [Prod.mk.injEq, Except.ok.injEq] at h
        rw [← h.1, pathVariables_ok hinputs, placeOutputs_ok houtputs]

section starting

/-- The action starts a program with `l`: whatever comes of a program that is started with `l` is
what the action reports and leaves. -/
def Starts (c : Command) (call : Call) (w : World) (l : Launch) : Prop :=
  ∀ run : Launch → Except OsError Exit × FileTree,
    c.action call { w with machine := { w.machine with run := run } } =
      c.conclude { w with machine := { w.machine with run := run } } (collect l.program (run l))

variable {c : Command} {call : Call} {w : World} {l : Launch}

/-- No text that a program is started with has a zero character in it. -/
def Passable (c : Command) (env : List (String × String)) : Prop :=
  (∀ a ∈ c.argv, hasNul a = false) ∧ hasNul c.cwd.text = false ∧
    ∀ v ∈ env, hasNul v.1 = false ∧ hasNul v.2 = false

instance (c : Command) (env : List (String × String)) : Decidable (c.Passable env) :=
  inferInstanceAs (Decidable (_ ∧ _ ∧ _))

theorem run_cons (w : World) {program : String} {arguments : List String} {env : List (String × String)}
    (hargv : c.argv = program :: arguments) :
    (c.Passable env → Command.run w c.argv c.cwd env = collect program (w.machine.run
      ⟨w.files, w.cwd, c.cwd, program, arguments, Keyed.ofList (w.environment ++ env)⟩)) ∧
    (¬c.Passable env →
      Command.run w c.argv c.cwd env = (.error (.spawn program .nulInCommand), w.files)) := by
  have hiff : (hasNul program || arguments.any hasNul || hasNul c.cwd.text ||
      env.any fun v => hasNul v.1 || hasNul v.2) = false ↔ c.Passable env := by
    simp [Passable, hargv, List.any_eq_false, and_assoc]
  rw [hargv, Command.run]
  refine ⟨fun h => ?_, fun h => ?_⟩
  · rw [hiff.mpr h]
    rfl
  · rw [Bool.eq_true_of_not_eq_false fun hno => h (hiff.mp hno)]
    rfl

theorem conclude_of_files (c : Command) (w : World) (files : FileTree)
    (x : Except AccessError Output × FileTree) :
    c.conclude { w with files := files } x = c.conclude w x := by
  obtain ⟨result, left⟩ := x
  cases result <;> rfl

theorem conclude_files (c : Command) (w : World) (program : String)
    (x : Except OsError Exit × FileTree) : (c.conclude w (collect program x)).2.files = x.2 := by
  obtain ⟨result, files⟩ := x
  cases result <;> rfl

/-- What a program leaves is not always the same. -/
theorem not_starts (files : FileTree) (h : ∀ run : Launch → Except OsError Exit × FileTree,
    (c.action call { w with machine := { w.machine with run := run } }).2.files = files) :
    ¬c.Starts call w l := by
  intro hstarts
  have hleft : ∀ t : FileTree, files = t := by
    intro t
    rw [← h fun _ => (.error .notFound, t), hstarts, conclude_files]
  exact absurd ((hleft ⟨[]⟩).symm.trans (hleft ⟨[([], .dir)]⟩)) (by decide)

theorem starts_of_action {l' : Launch}
    (h : ∀ run : Launch → Except OsError Exit × FileTree,
      c.action call { w with machine := { w.machine with run := run } } =
        c.conclude { w with machine := { w.machine with run := run } } (collect l'.program (run l'))) :
    c.Starts call w l ↔ l = l' := by
  refine ⟨fun hstarts => ?_, fun hsame => hsame ▸ h⟩
  by_contra hne
  have htwo := h fun x => (.error .notFound, if x = l then ⟨[]⟩ else ⟨[([], .dir)]⟩)
  rw [hstarts] at htwo
  have hfiles := congrArg (fun x => x.2.files) htwo
  simp only [conclude_files, if_pos, if_neg (Ne.symm hne)] at hfiles
  exact absurd hfiles (by decide)

theorem action_eq_conclude {env : List (String × String)} {files : FileTree} {program : String}
    {arguments : List String} (hsetUp : c.setUp call w.cwd w.files = (.ok env, files))
    (hcancelled : w.cancelled = false) (hargv : c.argv = program :: arguments)
    (hpass : c.Passable env) (run : Launch → Except OsError Exit × FileTree) :
    c.action call { w with machine := { w.machine with run := run } } =
      c.conclude { w with machine := { w.machine with run := run } } (collect program
        (run ⟨files, w.cwd, c.cwd, program, arguments, Keyed.ofList (w.environment ++ env)⟩)) := by
  rw [← conclude_of_files c _ files]
  simp [action, hsetUp, hcancelled, (run_cons _ hargv).1 hpass]

/-- When an action starts a program, and with what. -/
theorem starts_iff : c.Starts call w l ↔ ∃ env files program arguments,
    c.setUp call w.cwd w.files = (.ok env, files) ∧ w.cancelled = false ∧
      c.argv = program :: arguments ∧ c.Passable env ∧
        l = ⟨files, w.cwd, c.cwd, program, arguments, Keyed.ofList (w.environment ++ env)⟩ := by
  cases hsetUp : c.setUp call w.cwd w.files with
  | mk result files =>
    cases result with
    | error message =>
      exact iff_of_false (not_starts files fun run => by simp [action, hsetUp]) (by simp)
    | ok env =>
      by_cases hcancelled : w.cancelled = true
      · exact iff_of_false (not_starts files fun run => by simp [action, hsetUp, hcancelled])
          (by simp [hcancelled])
      · cases hargv : c.argv with
        | nil =>
          refine iff_of_false (not_starts files fun run => ?_) (by simp)
          simp [action, hsetUp, hcancelled, hargv, Command.run, conclude]
        | cons program arguments =>
          by_cases hpass : c.Passable env
          · rw [starts_of_action (action_eq_conclude hsetUp (by simpa using hcancelled) hargv hpass)]
            simp [hcancelled, hpass]
          · refine iff_of_false (not_starts files fun run => ?_) (by simp [hpass])
            simp [action, hsetUp, hcancelled, (run_cons _ hargv).2 hpass, conclude]

end starting

section names

theorem toList_variableFor (start : String) (s : SlotId) : (variableFor start s).toList =
    start.toList ++ s.toList.map fun c => if c.isAlphanum then c.toUpper else '_' := by
  simp [variableFor]

/-- Two characters look alike in the name of a variable. -/
def LookAlike (a b : Char) : Prop :=
  a.isAlphanum = b.isAlphanum ∧ (a.isAlphanum = true → a.toUpper = b.toUpper)

theorem toUpper_ne_underscore {c : Char} (h : c.isAlphanum = true) : c.toUpper ≠ '_' := by
  have hascii : c.toNat < 128 := by
    delta Char.isAlphanum Char.isAlpha Char.isUpper Char.isLower Char.isDigit at h
    simp [UInt32.le_iff_toNat_le] at h
    omega
  have hall : ∀ n < 128, (Char.ofNat n).isAlphanum = true → (Char.ofNat n).toUpper ≠ '_' := by decide
  have hc := hall c.toNat hascii
  rw [Char.ofNat_toNat] at hc
  exact hc h

theorem lookAlike_iff {a b : Char} : LookAlike a b ↔
    (if a.isAlphanum then a.toUpper else '_') = if b.isAlphanum then b.toUpper else '_' := by
  unfold LookAlike
  by_cases ha : a.isAlphanum = true <;> by_cases hb : b.isAlphanum = true
  · simp [ha, hb]
  · simpa [ha, hb] using toUpper_ne_underscore ha
  · simpa [ha, hb] using (toUpper_ne_underscore hb).symm
  · simp [ha, hb]

theorem variableFor_eq_iff {s s' : SlotId} :
    variableFor start s = variableFor start s' ↔ List.Forall₂ LookAlike s.toList s'.toList := by
  rw [← String.toList_inj, toList_variableFor, toList_variableFor, List.append_cancel_left_eq,
    ← List.forall₂_eq_eq_eq, List.forall₂_map_left_iff, List.forall₂_map_right_iff]
  exact ⟨fun h => h.imp fun _ _ => lookAlike_iff.mpr, fun h => h.imp fun _ _ => lookAlike_iff.mp⟩

theorem letter_variableFor {i : Nat} {c : Char} (h : start.toList[i]? = some c) (s : SlotId) :
    (variableFor start s).toList[i]? = some c := by
  rw [toList_variableFor, List.getElem?_append_left (List.getElem?_eq_some_iff.mp h).1, h]

theorem ne_of_letter {name name' : String} {i : Nat} {c c' : Char} (h : name.toList[i]? = some c)
    (h' : name'.toList[i]? = some c') (hne : c ≠ c') : name ≠ name' := by
  rintro rfl
  exact hne (Option.some.inj (h.symm.trans h'))

/-- The sixth letter tells the variables of inputs from those of outputs and from the one of the
task. -/
theorem letter_passed {v : String × String} :
    (v ∈ slots.map (passed "KILN_INPUT_") → v.1.toList[5]? = some 'I') ∧
      (v ∈ slots.map (passed "KILN_OUTPUT_") → v.1.toList[5]? = some 'O') := by
  constructor <;> intro hv <;> obtain ⟨s, -, rfl⟩ := List.mem_map.mp hv <;>
    exact letter_variableFor (by decide) s.1

end names

theorem get?_of_last {environment env earlier later : List (String × String)} {name value : String}
    (h : env = earlier ++ (name, value) :: later) (hlater : ∀ x ∈ later, x.1 ≠ name) :
    Keyed.get? name (Keyed.ofList (environment ++ env)) = some value := by
  rw [h, ← List.append_assoc]
  exact Keyed.get?_ofList_of_last hlater

/-- When an action starts its program, the variable of the task holds its id, and the variable of
each input slot holds its paths unless a later input slot has the same variable, and likewise for
output slots. Nothing that the user or the parent process sets is seen under these names. Two slots
of one side have the same variable exactly if they look alike, character by character. -/
theorem slot_variables {c : Command} {call : Call} {w : World} {l : Launch} (h : c.Starts call w l) :
    Keyed.get? "KILN_TASK" l.environment = some call.task ∧
    (∀ earlier s ps later, call.inputs = earlier ++ (s, ps) :: later →
      (∀ x ∈ later, variableFor "KILN_INPUT_" x.1 ≠ variableFor "KILN_INPUT_" s) →
      Keyed.get? (variableFor "KILN_INPUT_" s) l.environment =
        some (":".intercalate (ps.map (·.text)))) ∧
    (∀ earlier s ps later, c.outputs = earlier ++ (s, ps) :: later →
      (∀ x ∈ later, variableFor "KILN_OUTPUT_" x.1 ≠ variableFor "KILN_OUTPUT_" s) →
      Keyed.get? (variableFor "KILN_OUTPUT_" s) l.environment =
        some (":".intercalate (ps.map (·.text)))) ∧
    ∀ start s s', variableFor start s = variableFor start s' ↔
      List.Forall₂ LookAlike s.toList s'.toList := by
  obtain ⟨env, files, program, arguments, hsetUp, -, -, -, rfl⟩ := starts_iff.mp h
  have henv := setUp_ok hsetUp
  refine ⟨?_, fun earlier s ps later hinputs hlater => ?_,
    fun earlier s ps later houtputs hlater => ?_, fun _ _ _ => variableFor_eq_iff⟩
  · rw [List.append_assoc, List.cons_append] at henv
    refine get?_of_last henv fun x hx => ?_
    have htask : "KILN_TASK".toList[5]? = some 'T' := by decide
    rcases List.mem_append.mp hx with hx | hx
    · exact ne_of_letter (letter_passed.1 hx) htask (by decide)
    · exact ne_of_letter (letter_passed.2 hx) htask (by decide)
  · have hsplit : env = (c.env ++ ("KILN_TASK", call.task) :: earlier.map (passed "KILN_INPUT_")) ++
        passed "KILN_INPUT_" (s, ps) ::
          (later.map (passed "KILN_INPUT_") ++ c.outputs.map (passed "KILN_OUTPUT_")) := by
      simp [henv, hinputs]
    refine get?_of_last hsplit fun x hx => ?_
    rcases List.mem_append.mp hx with hx | hx
    · obtain ⟨y, hy, rfl⟩ := List.mem_map.mp hx
      exact hlater y hy
    · exact ne_of_letter (letter_passed.2 hx) (letter_variableFor (by decide) s)
        (by decide : 'O' ≠ 'I')
  · have hsplit : env = (c.env ++ ("KILN_TASK", call.task) ::
        call.inputs.map (passed "KILN_INPUT_") ++ earlier.map (passed "KILN_OUTPUT_")) ++
          passed "KILN_OUTPUT_" (s, ps) :: later.map (passed "KILN_OUTPUT_") := by
      simp [henv, houtputs]
    refine get?_of_last hsplit fun x hx => ?_
    obtain ⟨y, hy, rfl⟩ := List.mem_map.mp hx
    exact hlater y hy

namespace Loom

/-- What is woven from three threads is put into two places. -/
def command : Command := ⟨⟨"."⟩, ["weave", "tight"],
  [("KILN_TASK", "none"), ("KILN_INPUT_WARP", "none"), ("COLOUR", "red")],
  [("cloth", [⟨"cloth"⟩]), ("edge.left", [⟨"left"⟩, ⟨"right"⟩])]⟩

def call : Call :=
  ⟨"weave", [("a-b", [⟨"x"⟩]), ("a.b", [⟨"y"⟩]), ("warp", [⟨"w"⟩, ⟨"v"⟩])], ["cloth", "edge.left"]⟩

def world : World := ⟨.empty, [], [("KILN_OUTPUT_CLOTH", "none"), ("COLOUR", "blue")], 0, false, .bare⟩

def launch : Launch := ⟨.empty, [], ⟨"."⟩, "weave", ["tight"],
  [("COLOUR", "red"), ("KILN_INPUT_A_B", "y"), ("KILN_INPUT_WARP", "w:v"),
    ("KILN_OUTPUT_CLOTH", "cloth"), ("KILN_OUTPUT_EDGE_LEFT", "left:right"), ("KILN_TASK", "weave")]⟩

theorem starts_launch : command.Starts call world launch :=
  starts_iff.mpr ⟨_, _, "weave", ["tight"], rfl, rfl, rfl, by decide, by decide⟩

theorem found_under_own_name : command.Starts call world launch ∧
    Keyed.get? "KILN_TASK" launch.environment = some "weave" ∧
    Keyed.get? "KILN_INPUT_WARP" launch.environment = some "w:v" ∧
    Keyed.get? "KILN_OUTPUT_CLOTH" launch.environment = some "cloth" := by
  obtain ⟨htask, hinput, houtput, -⟩ := slot_variables starts_launch
  have hwarp := hinput [("a-b", [⟨"x"⟩]), ("a.b", [⟨"y"⟩])] "warp" [⟨"w"⟩, ⟨"v"⟩] [] rfl (by simp)
  have hcloth := houtput [] "cloth" [⟨"cloth"⟩] [("edge.left", [⟨"left"⟩, ⟨"right"⟩])] rfl (by decide)
  exact ⟨starts_launch, htask, hwarp, hcloth⟩

/-- The first two inputs are different slots under one name. -/
theorem lost_under_shared_name : ¬∀ (c : Command) (call : Call) (w : World) (l : Launch),
    (call.inputs.map (·.1)).Nodup → (c.outputs.map (·.1)).Nodup → c.Starts call w l →
    ∀ x ∈ call.inputs, Keyed.get? (variableFor "KILN_INPUT_" x.1) l.environment =
      some (":".intercalate (x.2.map (·.text))) := by
  intro hall
  have hlost := hall command call world launch (by decide) (by decide) starts_launch
    ("a-b", [⟨"x"⟩]) (by simp [call])
  exact absurd hlost (by decide)

end Loom

end SlotBuild.Command
