import X64.Proofs.Machine.Extension
import X64.Proofs.Memory
import Mathlib.Tactic.Common

/-!
# Captured output

A program writes by system calls alone. This module says which numbers select which call, what the
step of a system call does in each case, and what the two streams hold after any number of steps.

* `Kernel.syscall?_eq_some_iff` decodes the numbers. A call has one number, and on Darwin a second
  one with the class bit.
* `Kernel.serve_eq_write_iff` and `Kernel.serve_eq_exit_iff` take a call that is served apart, and
  `Machine.ServesCalls` collects what the step of a system call does in every case
  (`Machine.servesCalls`).
* `Machine.written` is what the next step writes to a stream. A step adds it at the end
  (`bytes_of_next?`), so the bytes of a run are those of its steps, in order (`bytes_of_after?`).
-/

namespace X64

/-! ## Streams -/

/-- The number under which a program writes to the stream. -/
def Stream.descriptor : Stream → UInt64
  | .stdout => 1
  | .stderr => 2

theorem Stream.descriptor_inj {s s' : Stream} : s.descriptor = s'.descriptor ↔ s = s' := by
  cases s <;> cases s' <;> decide

theorem Stream.ofDescriptor?_eq_some_iff {fd : UInt64} {s : Stream} :
    Stream.ofDescriptor? fd = some s ↔ fd = s.descriptor := by
  unfold ofDescriptor?
  by_cases hout : fd = 1
  · subst hout
    cases s <;> decide
  · rw [if_neg hout]
    by_cases herr : fd = 2
    · subst herr
      cases s <;> decide
    · cases s <;> simp [descriptor, hout, herr]

/-- The bytes that were written to a stream. -/
def Output.bytes (o : Output) : Stream → Array UInt8
  | .stdout => o.stdout
  | .stderr => o.stderr

@[simp] theorem Output.bytes_append_self (o : Output) (s : Stream) (bs : Array UInt8) :
    (o.append s bs).bytes s = o.bytes s ++ bs := by
  cases s <;> rfl

theorem Output.bytes_append_of_ne (o : Output) {s s' : Stream} (h : s' ≠ s) (bs : Array UInt8) :
    (o.append s bs).bytes s' = o.bytes s' := by
  cases s with
  | stdout =>
    cases s' with
    | stdout => exact absurd rfl h
    | stderr => rfl
  | stderr =>
    cases s' with
    | stdout => rfl
    | stderr => exact absurd rfl h

/-- The bytes that a write asks for: those from `rsi` on, `rdx` of them. -/
def writeBuffer (memory : Memory) (state : State) : Array UInt8 :=
  memory.bytes.extract (state.get .rsi).toNat
    ((state.get .rsi).toNat + (state.get .rdx).toNat)

/-! ## Numbers of system calls -/

namespace Kernel

/-- The kernel takes the number for the call: it is that of the call, or on Darwin the same with the
class bit set. -/
def Accepts (k : Kernel) (c : Syscall) (id : UInt64) : Prop :=
  id = k.number c ∨ k = .darwin ∧ id = k.number c ||| 0x2000000

instance (k : Kernel) (c : Syscall) (id : UInt64) : Decidable (k.Accepts c id) :=
  inferInstanceAs (Decidable (_ ∨ _))

/-- A number either has the class bit or it has not. -/
theorem and_darwinUnixClass (id : UInt64) :
    id &&& darwinUnixClass = 0 ∨ id &&& darwinUnixClass = darwinUnixClass := by
  have hand := BitVec.and_twoPow id.toBitVec 25
  have hbit : BitVec.twoPow 64 25 = darwinUnixClass.toBitVec := by decide
  rw [hbit, ← UInt64.toBitVec_and] at hand
  split at hand
  · exact Or.inr (UInt64.toBitVec_inj.1 hand)
  · exact Or.inl (UInt64.toBitVec_inj.1 hand)

/-- A number is put together from the part that selects the call and the class bit. -/
theorem selector_or_and (id : UInt64) :
    darwin.selector id ||| (id &&& darwinUnixClass) = id := by
  apply UInt64.toBitVec_inj.1
  rw [selector, UInt64.toBitVec_or, UInt64.toBitVec_and, UInt64.toBitVec_and,
    ← BitVec.and_or_distrib_left, UInt64.toBitVec_not, BitVec.or_comm, BitVec.or_not_self,
    BitVec.and_allOnes]

/-- A number selects a call exactly when the kernel takes it for that call. -/
theorem selector_eq_number_iff {k : Kernel} {c : Syscall} {id : UInt64} :
    k.selector id = k.number c ↔ k.Accepts c id := by
  constructor
  · intro h
    cases k with
    | linux => exact Or.inl h
    | darwin =>
      have hparts := selector_or_and id
      rw [h] at hparts
      rcases and_darwinUnixClass id with hclear | hset
      · rw [hclear, UInt64.or_zero] at hparts
        exact Or.inl hparts.symm
      · rw [hset] at hparts
        exact Or.inr ⟨rfl, hparts.symm⟩
  · rintro (rfl | ⟨rfl, rfl⟩)
    · cases k <;> cases c <;> decide
    · cases c <;> decide

theorem syscall?_eq_some_iff {k : Kernel} {c : Syscall} {id : UInt64} :
    k.syscall? id = some c ↔ k.Accepts c id := by
  have hne : k.number .write ≠ k.number .exit := by
    cases k <;> decide
  rw [← selector_eq_number_iff]
  unfold syscall?
  by_cases hexit : k.selector id = k.number .exit
  · rw [if_pos hexit, hexit]
    cases c <;> simp [hne.symm]
  · rw [if_neg hexit]
    by_cases hwrite : k.selector id = k.number .write
    · rw [if_pos hwrite, hwrite]
      cases c <;> simp [hne]
    · rw [if_neg hwrite]
      cases c <;> simp [hexit, hwrite]

theorem syscall?_eq_none_iff {k : Kernel} {id : UInt64} :
    k.syscall? id = none ↔ ∀ c, ¬k.Accepts c id := by
  simp only [← syscall?_eq_some_iff, Option.eq_none_iff_forall_ne_some, ne_eq]

/-! ## Served calls -/

variable {k : Kernel} {memory : Memory} {state : State}

/-- A write appends the bytes of the buffer. It puts their number into `rax` and moves on. -/
theorem serve_eq_write_iff {s : Stream} {bytes : Array UInt8} {next : State} :
    k.serve memory state = .ok (.write s bytes next) ↔
      k.Accepts .write (state.get .rax) ∧ state.get .rdi = s.descriptor ∧
        memory.InBounds (state.get .rsi) (state.get .rdx).toNat ∧
        bytes = writeBuffer memory state ∧ next = (state.set .rax (state.get .rdx)).advance := by
  rw [← syscall?_eq_some_iff, ← Stream.ofDescriptor?_eq_some_iff]
  unfold serve writeBuffer
  cases k.syscall? (state.get .rax) with
  | none => simp
  | some c =>
    cases c with
    | exit => simp
    | write =>
      cases Stream.ofDescriptor? (state.get .rdi) with
      | none => simp
      | some s' =>
        by_cases hin : memory.InBounds (state.get .rsi) (state.get .rdx).toNat
        · simp [Memory.readBytes_eq hin, hin, eq_comm]
        · simp [Memory.readBytes_of_not_inBounds hin, hin]

theorem serve_eq_exit_iff {status : UInt64} :
    k.serve memory state = .ok (.exit status) ↔
      k.Accepts .exit (state.get .rax) ∧ status = state.get .rdi := by
  rw [← syscall?_eq_some_iff]
  unfold serve
  cases k.syscall? (state.get .rax) with
  | none => simp
  | some c =>
    cases c with
    | exit => simp [eq_comm]
    | write =>
      simp only [Option.some.injEq, reduceCtorEq, false_and, iff_false]
      split
      · simp
      · split <;> simp

theorem serve_of_unknown (h : ∀ c, ¬k.Accepts c (state.get .rax)) :
    k.serve memory state = .error (.unknown k (state.get .rax)) := by
  rw [serve, syscall?_eq_none_iff.2 h]

theorem serve_of_badFileDescriptor (hcall : k.Accepts .write (state.get .rax))
    (hstream : ∀ s : Stream, state.get .rdi ≠ s.descriptor) :
    k.serve memory state = .error (.badFileDescriptor (state.get .rdi)) := by
  have hnone : Stream.ofDescriptor? (state.get .rdi) = none := by
    rw [Option.eq_none_iff_forall_ne_some]
    intro s hs
    exact hstream s (Stream.ofDescriptor?_eq_some_iff.1 hs)
  rw [serve, syscall?_eq_some_iff.2 hcall]
  simp only [hnone]

theorem serve_of_outOfBounds {s : Stream} (hcall : k.Accepts .write (state.get .rax))
    (hstream : state.get .rdi = s.descriptor)
    (hout : ¬memory.InBounds (state.get .rsi) (state.get .rdx).toNat) :
    k.serve memory state =
      .error (.memory
        { address := state.get .rsi, length := (state.get .rdx).toNat, size := memory.size }) := by
  rw [serve, syscall?_eq_some_iff.2 hcall]
  simp only [Stream.ofDescriptor?_eq_some_iff.2 hstream, Memory.readBytes_of_not_inBounds hout]

end Kernel

/-! ## Steps -/

namespace Machine

variable {m v : Machine} {i : Instruction}

/-- The second machine is the first one after a write to a stream. The bytes of the buffer are added
to the stream, `rax` holds their number, and `rip` is one more. The step is recorded, and all else
is as it was. -/
structure Wrote (m : Machine) (s : Stream) (v : Machine) : Prop where
  bytes_eq : v.output.bytes s = m.output.bytes s ++ writeBuffer m.memory m.state
  other_eq : ∀ s', s' ≠ s → v.output.bytes s' = m.output.bytes s'
  rax_eq : v.state.get .rax = m.state.get .rdx
  rip_eq : v.state.get .rip = m.state.get .rip + 1
  get_eq : ∀ r, r ≠ .rax → r ≠ .rip → v.state.get r = m.state.get r
  flags_eq : v.state.flags = m.state.flags
  memory_eq : v.memory = m.memory
  exitStatus_eq : v.exitStatus = m.exitStatus
  trace_eq : v.trace = m.record.trace
  sameSetting : m.SameSetting v

/-- What the step of a system call does. It writes or exits if the kernel takes the number in `rax`
for that call. Any other number, a write to anything but the two streams, and a write of bytes that
are not all inside memory are errors, and then the machine only records the step. -/
structure ServesCalls (m : Machine) : Prop where
  write : ∀ s : Stream, m.kernel.Accepts .write (m.state.get .rax) →
    m.state.get .rdi = s.descriptor →
    (m.state.get .rsi).toNat + (m.state.get .rdx).toNat ≤ m.memory.size →
      ∃ v, m.step = (v, .ok ()) ∧ m.Wrote s v
  exit : m.kernel.Accepts .exit (m.state.get .rax) →
    m.step = ({ m.record with exitStatus := some (m.state.get .rdi) }, .ok ())
  unknown : (∀ c, ¬m.kernel.Accepts c (m.state.get .rax)) →
    m.step = (m.record, .error (.syscall (.unknown m.kernel (m.state.get .rax))))
  badFileDescriptor : m.kernel.Accepts .write (m.state.get .rax) →
    (∀ s : Stream, m.state.get .rdi ≠ s.descriptor) →
      m.step = (m.record, .error (.syscall (.badFileDescriptor (m.state.get .rdi))))
  outOfBounds : ∀ s : Stream, m.kernel.Accepts .write (m.state.get .rax) →
    m.state.get .rdi = s.descriptor →
    m.memory.size < (m.state.get .rsi).toNat + (m.state.get .rdx).toNat →
      m.step = (m.record, .error (.syscall (.memory
        { address := m.state.get .rsi
          length := (m.state.get .rdx).toNat
          size := m.memory.size })))

theorem step_syscall (hi : m.current? = some i) (hm : i.mnemonic = .syscall) :
    m.step =
      match m.kernel.serve m.memory m.state with
      | .ok effect => (m.record.applySyscall effect, .ok ())
      | .error error => (m.record, .error (.syscall error)) := by
  rw [step, hi]
  cases hserve : m.kernel.serve m.memory m.state with
  | ok effect => simp only [perform, if_pos hm, record, hserve]
  | error error => simp only [perform, if_pos hm, record, hserve]

/-- The machine after a write is served. -/
theorem wrote_applySyscall (m : Machine) (s : Stream) :
    m.Wrote s (m.record.applySyscall (.write s (writeBuffer m.memory m.state)
      (m.state.set .rax (m.state.get .rdx)).advance)) where
  bytes_eq := Output.bytes_append_self _ _ _
  other_eq s' hs' := Output.bytes_append_of_ne _ hs' _
  rax_eq := by
    rw [applySyscall, State.get_advance_of_ne _ (by decide), State.get_set_self]
  rip_eq := by
    rw [applySyscall, State.get_advance_rip, State.get_set_of_ne _ (by decide)]
  get_eq r hrax hrip := by
    rw [applySyscall, State.get_advance_of_ne _ hrip, State.get_set_of_ne _ hrax]
  flags_eq := rfl
  memory_eq := rfl
  exitStatus_eq := rfl
  trace_eq := rfl
  sameSetting := ⟨rfl, rfl⟩

theorem servesCalls (hi : m.current? = some i) (hm : i.mnemonic = .syscall) : m.ServesCalls where
  write s hcall hstream hin := by
    rw [step_syscall hi hm, Kernel.serve_eq_write_iff.2 ⟨hcall, hstream, hin, rfl, rfl⟩]
    exact ⟨_, rfl, m.wrote_applySyscall s⟩
  exit hcall := by
    rw [step_syscall hi hm, Kernel.serve_eq_exit_iff.2 ⟨hcall, rfl⟩]
    rfl
  unknown hcall := by
    rw [step_syscall hi hm, Kernel.serve_of_unknown hcall]
  badFileDescriptor hcall hstream := by
    rw [step_syscall hi hm, Kernel.serve_of_badFileDescriptor hcall hstream]
  outOfBounds s hcall hstream hout := by
    rw [step_syscall hi hm, Kernel.serve_of_outOfBounds hcall hstream (Nat.not_le.2 hout)]

/-- No other instruction writes, whether it succeeds or fails. -/
theorem output_step (hi : m.current? = some i) (hm : i.mnemonic ≠ .syscall) :
    m.step.1.output = m.output := by
  rw [step, hi]
  simp only [perform, if_neg hm]
  cases i.effect m.record.memory m.record.state <;> rfl

/-! ## Runs -/

/-- What the next step of the machine writes to a stream: the bytes of the buffer, if the step is a
write to that stream. -/
def written (m : Machine) (s : Stream) : List UInt8 :=
  match m.current? with
  | some i =>
    if i.mnemonic = .syscall ∧ m.kernel.Accepts .write (m.state.get .rax) ∧
        m.state.get .rdi = s.descriptor then
      (writeBuffer m.memory m.state).toList
    else []
  | none => []

theorem written_of_ne_syscall (hi : m.current? = some i) (hm : i.mnemonic ≠ .syscall)
    (s : Stream) : m.written s = [] := by
  rw [written, hi]
  exact if_neg fun h => hm h.1

theorem written_syscall (hi : m.current? = some i) (hm : i.mnemonic = .syscall) (s : Stream) :
    m.written s =
      if m.kernel.Accepts .write (m.state.get .rax) ∧ m.state.get .rdi = s.descriptor then
        (writeBuffer m.memory m.state).toList
      else [] := by
  rw [written, hi]
  simp only [hm, true_and]

/-- A successful step adds what it writes at the end of the stream. -/
theorem bytes_of_next? (h : m.next? = some v) (s : Stream) :
    (v.output.bytes s).toList = (m.output.bytes s).toList ++ m.written s := by
  obtain ⟨i, hi, ⟨hsyscall, e, hserve, rfl⟩ | ⟨hsyscall, e, -, rfl⟩⟩ := next?_cases h
  · rw [written_syscall hi hsyscall]
    cases e with
    | exit status =>
      have hcall := (Kernel.serve_eq_exit_iff.1 hserve).1
      have hnot : ¬m.kernel.Accepts .write (m.state.get .rax) := by
        rw [← Kernel.syscall?_eq_some_iff] at hcall ⊢
        simp [hcall]
      rw [if_neg fun hwrite => hnot hwrite.1, List.append_nil]
      rfl
    | write s' bytes next =>
      obtain ⟨hcall, hstream, -, rfl, rfl⟩ := Kernel.serve_eq_write_iff.1 hserve
      by_cases hs : s = s'
      · subst hs
        rw [if_pos ⟨hcall, hstream⟩, ← Array.toList_append]
        exact congrArg Array.toList (Output.bytes_append_self _ _ _)
      · have hnot : m.state.get .rdi ≠ s.descriptor := by
          rw [hstream]
          exact fun heq => hs (Stream.descriptor_inj.1 heq).symm
        rw [if_neg fun hwrite => hnot hwrite.2, List.append_nil]
        exact congrArg Array.toList (Output.bytes_append_of_ne _ hs _)
  · rw [written_of_ne_syscall hi hsyscall, List.append_nil]
    rfl

/-- The machines from which the first `n` steps are taken, in order. -/
def path (m : Machine) (n : Nat) : List Machine := (List.range n).filterMap fun j => m.after? j

theorem path_succ {n : Nat} (h : m.after? n = some v) : m.path (n + 1) = m.path n ++ [v] := by
  rw [path, List.range_succ, List.filterMap_append]
  simp only [List.filterMap_cons, h, List.filterMap_nil]
  rfl

/-- A stream holds what it held before, and then what each step has written. -/
theorem bytes_of_after? {n : Nat} (h : m.after? n = some v) (s : Stream) :
    (v.output.bytes s).toList =
      (m.output.bytes s).toList ++ (m.path n).flatMap fun u => u.written s := by
  induction n generalizing v with
  | zero =>
    obtain rfl : m = v := by simpa using h
    exact (List.append_nil _).symm
  | succ n ih =>
    rw [after?_succ] at h
    obtain ⟨u, hu, hv⟩ := Option.bind_eq_some_iff.1 h
    rw [bytes_of_next? hv, ih hu, path_succ hu, List.flatMap_append, List.append_assoc,
      List.flatMap_singleton]

end Machine

/-- Captured output is append-only and complete. After any number of successful steps each of the
two streams holds what it held before, followed by the bytes that each of the writes to it found in
memory at its time, in the order of the writes. No instruction but `syscall` changes a stream, and
what the step of a `syscall` does is decided by the number in `rax`, the descriptor in `rdi` and the
bounds of the buffer. -/
theorem output_is_append_only :
    (∀ (m v : Machine) (n : Nat), m.after? n = some v → ∀ s : Stream,
      (v.output.bytes s).toList =
        (m.output.bytes s).toList ++ (m.path n).flatMap fun u => u.written s) ∧
      (∀ (m : Machine) (i : Instruction), m.current? = some i → i.mnemonic ≠ .syscall →
        m.step.1.output = m.output) ∧
      ∀ (m : Machine) (i : Instruction), m.current? = some i → i.mnemonic = .syscall →
        m.ServesCalls := by
  refine ⟨fun m v n h s => Machine.bytes_of_after? h s, fun m i hi hm => ?_, fun m i hi hm => ?_⟩
  · exact Machine.output_step hi hm
  · exact Machine.servesCalls hi hm

/-- A machine that is about to write the two bytes of its memory to one stream, then to change the
first of them, and then to write both to the other stream. -/
def twoWrites : Machine where
  program :=
    { instructions :=
        #[⟨.syscall, [], 1⟩, ⟨.mov, [.memory ⟨some .byte, some .rsi, 0⟩, .immediate 65], 2⟩,
          ⟨.mov, [.register ⟨.rax, .qword⟩, .immediate 4], 3⟩,
          ⟨.mov, [.register ⟨.rdi, .qword⟩, .immediate 2], 4⟩, ⟨.syscall, [], 5⟩] }
  kernel := .darwin
  memory := ⟨#[72, 105]⟩
  state := (((({} : State).set .rax 0x2000004).set .rdi 1).set .rsi 0).set .rdx 2

/-- The first write is asked for with the class bit and the second one without it. Each stream holds
the bytes as they were when they were written to it. -/
theorem twoWrites_output :
    ∃ v, twoWrites.after? 5 = some v ∧ v.output = { stdout := #[72, 105], stderr := #[65, 105] } ∧
      ((twoWrites.path 5).flatMap fun u => u.written .stdout) = [72, 105] ∧
      ((twoWrites.path 5).flatMap fun u => u.written .stderr) = [65, 105] ∧
      twoWrites.ServesCalls := by
  obtain ⟨hruns, -, hcalls⟩ := output_is_append_only
  have hafter : (twoWrites.after? 5).isSome = true := by decide +kernel
  obtain ⟨v, hv⟩ := Option.isSome_iff_exists.1 hafter
  have houtput : v.output = { stdout := #[72, 105], stderr := #[65, 105] } := by
    have heq : (twoWrites.after? 5).map Machine.output =
        some { stdout := #[72, 105], stderr := #[65, 105] } := by decide +kernel
    rw [hv] at heq
    exact Option.some.inj heq
  have hempty : ∀ s, (twoWrites.output.bytes s).toList = [] := by
    intro s
    cases s <;> rfl
  have hstdout := hruns twoWrites v 5 hv .stdout
  have hstderr := hruns twoWrites v 5 hv .stderr
  rw [houtput, hempty, List.nil_append] at hstdout hstderr
  refine ⟨v, hv, houtput, hstdout.symm, hstderr.symm, ?_⟩
  exact hcalls twoWrites ⟨.syscall, [], 1⟩ (by decide +kernel) rfl

end X64
