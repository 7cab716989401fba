import X64.Proofs.Machine.Block

/-!
# Function frames

A function is `Called` at a depth when the index to return to is on top of the stack and no known
slot lies further down. Functions of compiled programs start with the same two instructions, which
save `rbp` and let it point at its saved value, and end with two that undo this. `Block.prologue`
and `Block.epilogue` are the rules for them: after both, the slots and the `rbp` of the caller are
what they were.
-/

namespace X64

open Function (update)

variable {q : Program} {top i index depth size line line' : Nat} {registers : Register → UInt64}
  {stack : List Slot}

/-- The index to return to is on top of the stack, and all known slots are there or above. -/
structure Called (registers : Register → UInt64) (stack : List Slot) (top depth index : Nat) :
    Prop where
  rsp_eq : registers .rsp = below top depth
  return_mem : ⟨depth, .qword, UInt64.ofNat index⟩ ∈ stack
  depth_le : ∀ u ∈ stack, u.depth ≤ depth

/-- The registers inside a function that was called at a depth: `rsp` and `rbp` hold the address of
the saved `rbp`. -/
def framed (registers : Register → UInt64) (top depth : Nat) : Register → UInt64 :=
  update (update registers .rsp (below top (depth + 8))) .rbp (below top (depth + 8))

/-- The stack inside a function: the `rbp` of the caller is saved behind the index to return to. -/
def saved (registers : Register → UInt64) (stack : List Slot) (depth : Nat) : List Slot :=
  ⟨depth + 8, .qword, registers .rbp⟩ :: stack

theorem Called.depth_le_of_mem_saved (h : Called registers stack top depth index) :
    ∀ u ∈ saved registers stack depth, u.depth ≤ depth + 8 := by
  intro u hu
  rcases List.mem_cons.1 hu with rfl | hu
  · exact le_rfl
  · exact Nat.le_add_right_of_le (h.depth_le u hu)

namespace Block

/-- The two instructions at the start of a function. -/
theorem prologue (hpush : q.instructions[i]? = some ⟨.push, [.register ⟨.rbp, .qword⟩], line⟩)
    (hmov : q.instructions[i + 1]? =
      some ⟨.mov, [.register ⟨.rbp, .qword⟩, .register ⟨.rsp, .qword⟩], line'⟩)
    (hcalled : Called registers stack top depth index) (htop : depth + 8 ≤ top) :
    Block q top 2 ⟨i, registers, stack⟩
      ⟨i + 2, framed registers top depth, saved registers stack depth⟩ := by
  let registers₁ := update registers .rsp (below top (depth + 8))
  have h₁ : Block q top 1 ⟨i, registers, stack⟩
      ⟨i + 1, registers₁, saved registers stack depth⟩ := by
    refine Block.push hpush (by decide) hcalled.rsp_eq htop fun _ => Slot.eq_or_apart_of_mem_cons ?_
    exact fun u hu => Nat.add_le_add_right (hcalled.depth_le u hu) 8
  have h₂ : Block q top 1 ⟨i + 1, registers₁, saved registers stack depth⟩
      ⟨i + 2, update registers₁ .rbp (Width.qword.truncate (Width.qword.truncate
        (below top (depth + 8)))), saved registers stack depth⟩ :=
    Block.mov hmov (by decide) (Or.inr rfl) rfl (Snapshot.reads_register (by decide) .qword)
  rw [Width.truncate_qword, Width.truncate_qword] at h₂
  exact h₁.trans h₂

/-- The two instructions at the end of a function. -/
theorem epilogue {registers' : Register → UInt64} {stack' : List Slot}
    (hpop : q.instructions[i]? = some ⟨.pop, [.register ⟨.rbp, .qword⟩], line⟩)
    (hret : q.instructions[i + 1]? = some ⟨.ret, [], line'⟩)
    (hcalled : Called registers stack top depth index)
    (hrsp : registers' .rsp = below top (depth + 8))
    (hsaved : saved registers stack depth ⊆ stack') :
    Block q top 2 ⟨i, registers', stack'⟩
      ⟨index, update (update registers' .rbp (registers .rbp)) .rsp (below top (depth - 8)),
        stack⟩ := by
  let registers₁ :=
    update (update registers' .rsp (below top (depth + 8 - 8))) .rbp (registers .rbp)
  have h₁ : Block q top 1 ⟨i, registers', stack'⟩ ⟨i + 1, registers₁, stack'⟩ :=
    Block.pop hpop (by decide) hrsp (hsaved (List.mem_cons_self ..))
  have h₂ : Block q top 1 ⟨i + 1, registers₁, stack'⟩
      ⟨index, update registers₁ .rsp (below top (depth - 8)), stack'⟩ :=
    Block.ret hret rfl (hsaved (List.mem_cons_of_mem _ hcalled.return_mem))
  have hregisters : update registers₁ .rsp (below top (depth - 8)) =
      update (update registers' .rbp (registers .rbp)) .rsp (below top (depth - 8)) := by
    rw [Function.update_comm (by decide), Function.update_idem, Function.update_comm (by decide)]
  rw [hregisters] at h₂
  exact (h₁.trans h₂).forget fun u hu => hsaved (List.mem_cons_of_mem _ hu)

variable {x : Int64}

/-- An operation on `rsp` and a number. -/
theorem moveStackPointer {m : Mnemonic} {op : Alu.Operation}
    (hi : q.instructions[i]? = some ⟨m, [.register ⟨.rsp, .qword⟩, .immediate x], line⟩)
    (hm : m.handler? = some (Handler.binary op)) :
    Block q top 1 ⟨i, registers, stack⟩
      ⟨i + 1, update registers .rsp (op .qword (registers .rsp) x.toUInt64).value, stack⟩ := by
  have h : Block q top 1 ⟨i, registers, stack⟩ _ :=
    Block.binary hi hm (by decide) (Or.inr rfl) rfl (Snapshot.reads_register (by decide) .qword)
      (Snapshot.reads_immediate x .qword)
  simpa only [Width.truncate_qword] using h

/-- Room for local variables. -/
theorem reserve (hi : q.instructions[i]? =
      some ⟨.sub, [.register ⟨.rsp, .qword⟩, .immediate x], line⟩)
    (hx : x.toUInt64 = UInt64.ofNat size) (hrsp : registers .rsp = below top depth)
    (htop : depth + size ≤ top) :
    Block q top 1 ⟨i, registers, stack⟩
      ⟨i + 1, update registers .rsp (below top (depth + size)), stack⟩ := by
  have h : Block q top 1 ⟨i, registers, stack⟩ _ := moveStackPointer hi rfl
  simp only [Alu.sub, Width.truncate_qword, hx, hrsp] at h
  rwa [below_sub htop] at h

/-- The room is given back. -/
theorem release (hi : q.instructions[i]? =
      some ⟨.add, [.register ⟨.rsp, .qword⟩, .immediate x], line⟩)
    (hx : x.toUInt64 = UInt64.ofNat size) (hrsp : registers .rsp = below top (depth + size))
    (htop : depth + size ≤ top) :
    Block q top 1 ⟨i, registers, stack⟩
      ⟨i + 1, update registers .rsp (below top depth), stack⟩ := by
  have h : Block q top 1 ⟨i, registers, stack⟩ _ := moveStackPointer hi rfl
  simp only [Alu.add, Width.truncate_qword, hx, hrsp] at h
  rwa [below_add (Nat.le_add_left size depth) htop, Nat.add_sub_cancel] at h

end Block

end X64
