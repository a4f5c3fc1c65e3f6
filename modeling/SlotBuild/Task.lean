import SlotBuild.Digest
import SlotBuild.Machine
import SlotBuild.Slot

/-! Tasks: what they consume and produce, and the action that does the work. An action reads and
changes the world, which holds all that a running task can touch. -/

namespace SlotBuild

abbrev TaskId := String

structure Call where
  task : TaskId
  inputs : Keyed (List Path)
  outputs : List SlotId
deriving DecidableEq, Repr

structure World where
  files : FileTree
  cwd : Key
  environment : List (String × String)
  clock : UInt64
  cancelled : Bool
  machine : Machine

inductive ActionResult where
  | reported (outputs : Keyed (List Path))
  | failed (message : String)
  | panicked
deriving DecidableEq, Repr

abbrev Action := Call → World → ActionResult × World

/-- Which input slots count towards a task's input fingerprint. -/
inductive InputFilter where
  | all
  | only (slots : List SlotId)
deriving DecidableEq, Repr

def InputFilter.includes : InputFilter → SlotId → Bool
  | all, _ => true
  | only slots, s => slots.contains s

/-- No slot is listed twice on one side. -/
structure Task where
  id : TaskId
  inputs : List SlotId
  outputs : List SlotId
  action : Action
  configDigest : String
  filter : InputFilter
  inputs_nodup : inputs.Nodup
  outputs_nodup : outputs.Nodup

namespace Task

def make (id : TaskId) (action : Action) : Task :=
  ⟨id, [], [], action, Digest.ofText "", .all, List.nodup_nil, List.nodup_nil⟩

def addOnce (s : SlotId) (ss : List SlotId) : List SlotId := if ss.contains s then ss else ss ++ [s]

theorem addOnce_nodup {s : SlotId} {ss : List SlotId} (h : ss.Nodup) : (addOnce s ss).Nodup := by
  by_cases hs : s ∈ ss
  · rwa [addOnce, if_pos (List.contains_iff_mem.mpr hs)]
  · rw [addOnce, if_neg fun hc => hs (List.contains_iff_mem.mp hc)]
    refine List.nodup_append.mpr ⟨h, by simp, fun a ha b hb => ?_⟩
    rw [List.mem_singleton.mp hb]
    exact fun heq => hs (heq ▸ ha)

def withInput (t : Task) (s : SlotId) : Task :=
  { t with inputs := addOnce s t.inputs, inputs_nodup := addOnce_nodup t.inputs_nodup }

def withOutput (t : Task) (s : SlotId) : Task :=
  { t with outputs := addOnce s t.outputs, outputs_nodup := addOnce_nodup t.outputs_nodup }

def withInputs (t : Task) (ss : List SlotId) : Task := ss.foldl withInput t

def withOutputs (t : Task) (ss : List SlotId) : Task := ss.foldl withOutput t

def withConfig (t : Task) (text : String) : Task := { t with configDigest := Digest.ofText text }

def withFilter (t : Task) (f : InputFilter) : Task := { t with filter := f }

end Task

end SlotBuild
