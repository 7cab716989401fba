import X64.Proofs.Launch.Completion

/-!
# Loading

What comes of a source that is loaded, in terms of the program that the source itself is read as and
of the label that a start routine would have to call (`Program.selectedEntry`).

A label may have the name of a register, but then no branch can name it, and a start routine that
calls it is not read. So there is one way to fail besides a source that is not read and a label that
is not defined, and its error is about a line behind the source (`Program.load_outcomes`).
-/

namespace X64.Program

/-- The label that a start routine of a program would call. -/
def selectedEntry (p : Program) (options : LaunchOptions) : String :=
  options.entry.getD (if (p.label? "main").isSome then "main" else "_main")

variable {source : String} {options : LaunchOptions} {p : Program} {target : Nat}

theorem entryLabel_of_label? (h : p.label? (p.selectedEntry options) = some target) :
    p.entryLabel options = .ok (p.selectedEntry options) := by
  unfold selectedEntry at h ⊢
  unfold entryLabel
  cases hentry : options.entry with
  | some name =>
    rw [hentry] at h
    exact if_pos (Option.isSome_iff_exists.2 ⟨target, h⟩)
  | none =>
    rw [hentry, Option.getD_none] at h
    by_cases hmain : (p.label? "main").isSome = true
    · simp [defaultEntries, hmain]
    · rw [if_neg hmain] at h
      simp [defaultEntries, hmain, h]

theorem entryLabel_eq_error (h : p.label? (p.selectedEntry options) = none) :
    p.entryLabel options = .error (.noEntry (options.entry.getD "main") p.labels.names) := by
  unfold selectedEntry at h
  unfold entryLabel
  cases hentry : options.entry with
  | some name =>
    rw [hentry] at h
    exact if_neg (by simpa using h)
  | none =>
    rw [hentry, Option.getD_none] at h
    by_cases hmain : (p.label? "main").isSome = true
    · rw [if_pos hmain] at h
      rw [h] at hmain
      exact absurd hmain (by decide)
    · rw [if_neg hmain] at h
      simp [defaultEntries, hmain, h]

theorem load_eq_error (hp : ofSource source = .ok p) (hstart : p.hasStart = false)
    (h : p.label? (p.selectedEntry options) = none) :
    load source options = .error (.noEntry (options.entry.getD "main") p.labels.names) := by
  rw [load, hp]
  show p.complete source options = _
  rw [complete, hstart, entryLabel_eq_error h]
  rfl

/-- What comes of loading. A source that is not read is not loaded, and a program with a start label
is left as it is. Otherwise the selected label has to be defined, and it must not be the name of a
register. Then the program gets the four instructions of the start routine. -/
theorem load_outcomes (source : String) (options : LaunchOptions) :
    (∀ e, ofSource source = .error e → load source options = .error (.source e)) ∧
      ∀ p, ofSource source = .ok p →
        (p.hasStart = true → load source options = .ok p) ∧
        (p.hasStart = false → p.label? (p.selectedEntry options) = none →
          ∃ name names, load source options = .error (.noEntry name names) ∧
            names.Pairwise (· < ·) ∧ ∀ label, label ∈ names ↔ (p.label? label).isSome = true) ∧
        ∀ target, p.hasStart = false → p.label? (p.selectedEntry options) = some target →
          ((∃ q, load source options = .ok q) ↔
            View.ofName? (p.selectedEntry options).toList = none) ∧
          (∀ q, load source options = .ok q → q.label? startLabel = some p.size ∧
            q.instructions = p.instructions ++ (options.kernel.startInstructions
              (p.selectedEntry options) target (Kernel.startLine source)).toArray) ∧
          (View.ofName? (p.selectedEntry options).toList ≠ none →
            load source options = .error (.source (.invalidOperand (Kernel.startLine source + 1)
              (p.selectedEntry options) .notLabel))) := by
  refine ⟨fun e he => by rw [load, he]; rfl, fun p hp => ⟨load_of_hasStart hp, ?_, ?_⟩⟩
  · intro hstart hlabel
    exact ⟨_, _, load_eq_error hp hstart hlabel, p.labels.sorted_names, fun _ => Labels.mem_names⟩
  · intro target hstart hlabel
    have hentry := entryLabel_of_label? hlabel
    have hloaded : ∀ q, load source options = .ok q → q.label? startLabel = some p.size ∧
        q.instructions = p.instructions ++ (options.kernel.startInstructions
          (p.selectedEntry options) target (Kernel.startLine source)).toArray :=
      fun q hq => (instructions_of_load hp hstart hentry hlabel hq).symm
    by_cases hname : View.ofName? (p.selectedEntry options).toList = none
    · obtain ⟨n, hload⟩ := load_of_hasStart_eq_false hp hstart hentry hlabel hname
      exact ⟨iff_of_true ⟨_, hload⟩ hname, hloaded, fun hregister => absurd hname hregister⟩
    · have hload := load_eq_of_entryLabel hp hstart hentry
      rw [ofSource_startRoutine_of_register hp hstart hlabel hname] at hload
      refine ⟨iff_of_false ?_ hname, hloaded, fun _ => hload⟩
      rintro ⟨q, hq⟩
      exact absurd (hload.symm.trans hq) (by simp [Except.mapError])

/-- A source with a label of each kind. -/
def registerLabel : String := "main:\n\tret\nRax:\n\tret"

/-- The program of `registerLabel`. -/
def registerLabelProgram : Program where
  instructions := #[⟨.ret, [], 2⟩, ⟨.ret, [], 4⟩]
  labels := .ofList [("Rax", 1), ("main", 0)]

theorem load_registerLabel :
    (∃ q, load registerLabel {} = .ok q ∧ q.label? startLabel = some 2) ∧
      load registerLabel { entry := some "Rax" } =
        .error (.source (.invalidOperand 6 "Rax" .notLabel)) := by
  have hp : ofSource registerLabel = .ok registerLabelProgram := by decide +kernel
  have hstart : registerLabelProgram.hasStart = false := by decide +kernel
  constructor
  · obtain ⟨-, -, hmain⟩ := (load_outcomes registerLabel {}).2 _ hp
    obtain ⟨hloads, hloaded, -⟩ := hmain 0 hstart (by decide +kernel)
    obtain ⟨q, hq⟩ := hloads.2 (by decide +kernel)
    exact ⟨q, hq, (hloaded q hq).1⟩
  · obtain ⟨-, -, hregister⟩ := (load_outcomes registerLabel { entry := some "Rax" }).2 _ hp
    exact (hregister 1 hstart (by decide +kernel)).2.2 (by decide +kernel)

/-- A label that is defined and still cannot be loaded as an entry. -/
theorem not_loaded_entry :
    ∃ p, ofSource "rax:\nret" = .ok p ∧ p.hasStart = false ∧ p.label? "rax" = some 0 ∧
      ¬∃ q, load "rax:\nret" { entry := some "rax" } = .ok q := by
  have hload : load "rax:\nret" { entry := some "rax" } =
      .error (.source (.invalidOperand 4 "rax" .notLabel)) := by
    decide +kernel
  refine ⟨{ instructions := #[⟨.ret, [], 2⟩], labels := .ofList [("rax", 0)] }, by decide +kernel,
    by decide +kernel, by decide +kernel, ?_⟩
  rintro ⟨q, hq⟩
  rw [hload] at hq
  cases hq

end X64.Program
