import CToys.Cp.CpHoles
import CToys.Lib.Runs

/-!
# What `cp_holes` writes

In every round the offset in the output is the number of bytes consumed.  So each byte of the
input that is not zero is written once, where it is in the input, and no zero byte is written.
-/

namespace CToys.Cp

open Posix

/-- The transfers write the bytes of `bytes` that are not zero, in their order and each once at
its offset, and write nothing else. -/
structure WritesData (trace : List Access) (bytes : List UInt8) : Prop where
  stores : stores outputFile trace = nonzeros 0 bytes
  writes : ∀ file off data, Access.write file off data ∈ trace → file = outputFile ∧ 0 ∉ data

/-- Nothing was written before the loop. -/
theorem Logged.writesData {input output bytes : List UInt8} {k : Kernel}
    (h : Logged (opened input output) k 0 bytes) : WritesData k.trace bytes where
  stores := h.stores
  writes file off data hmem := (h.writes file off data hmem).resolve_left List.not_mem_nil

/-- The program comes to the head of its loop in the state `k` when it has consumed the chunks
`chunks` of the input. -/
structure AtLoop (sched : Schedule) (input output : List UInt8) (chunks : List (List UInt8))
    (k : Kernel) : Prop where
  consumed : chunks.flatten <+: input
  resumes : ∃ left, cpHoles sched (start input output) =
    (copyLoop sched 3 4 left >>= fun _ => closeBoth sched 3 4) k
  source : k.fds 3 = some ⟨inputFile, .rdonly, chunks.flatten.length⟩
  target : k.fds 4 = some ⟨outputFile, .wronly, chunks.flatten.length⟩
  writes : WritesData k.trace chunks.flatten

section

variable {sched : Schedule} {input output : List UInt8}

/-- A run of rounds consumes the chunks. -/
theorem Copying.run (hs : sched.Smooth) {inputFd outputFd : Int} (hne : inputFd ≠ outputFd)
    {k k' : Kernel} {chunks : List (List UInt8)}
    (hrun : Run (Chunk sched inputFd outputFd) k chunks k') :
    ∀ {done rest : List UInt8}, Copying k inputFd outputFd done rest →
      ∃ rest', rest = chunks.flatten ++ rest' ∧
        Copying k' inputFd outputFd (done ++ chunks.flatten) rest' ∧
        Logged k k' done.length chunks.flatten := by
  induction hrun with
  | nil =>
    intro done rest hk
    refine ⟨rest, rfl, ?_, .of_zeros _ rfl (by simp)⟩
    rwa [List.flatten_nil, List.append_nil]
  | @cons k k₁ k₂ buf chunks hchunk _ ih =>
    intro done rest hk
    have hrest : rest ≠ [] := by
      rintro rfl
      obtain ⟨k', heof, -⟩ := hk.eof hs hne
      obtain ⟨hbuf, k₀, hread, -⟩ := hchunk
      exact hbuf (Option.some.inj (hread.unique heof).1)
    obtain ⟨buf', rest₁, k', rfl, hchunk', hk', hl⟩ := hk.chunk hs hne hrest
    obtain ⟨rfl, rfl⟩ := hchunk'.unique hchunk
    obtain ⟨rest', rfl, hk₂, hl₂⟩ := ih hk'
    refine ⟨rest', by simp, ?_, ?_⟩
    · simpa using hk₂
    · exact hl.trans hl₂ (List.length_append ..)

/-- The loop goes on behind a run of rounds. -/
theorem copyLoop_run {inputFd outputFd : Int} {k k' : Kernel} {chunks : List (List UInt8)}
    (hrun : Run (Chunk sched inputFd outputFd) k chunks k') (left : Nat) :
    copyLoop sched inputFd outputFd (chunks.length + left) k =
      copyLoop sched inputFd outputFd left k' := by
  induction hrun with
  | nil => rw [List.length_nil, Nat.zero_add]
  | @cons k k₁ k₂ buf chunks hchunk _ ih =>
    rw [List.length_cons, Nat.add_right_comm, hchunk.copyLoop_apply, ih]

/-- A chunk has at least one byte. -/
theorem chunks_length_le {inputFd outputFd : Int} {k k' : Kernel} {chunks : List (List UInt8)}
    (hrun : Run (Chunk sched inputFd outputFd) k chunks k') :
    chunks.length ≤ chunks.flatten.length := by
  induction hrun with
  | nil => exact Nat.le_refl 0
  | @cons k k₁ k₂ buf chunks hchunk _ ih =>
    have hpos := List.length_pos_of_ne_nil hchunk.1
    rw [List.length_cons, List.flatten_cons, List.length_append]
    omega

/-- After every round the offset in the output is the number of bytes consumed.  At the end each
byte that is not zero was written once and where it is in the input, and no zero byte was. -/
theorem cpHoles_writes (hs : sched.Smooth) (input output : List UInt8) :
    (∀ chunks k, Run (Chunk sched 3 4) (opened input output) chunks k →
      AtLoop sched input output chunks k) ∧
    Ends (cpHoles sched) (start input output) fun status k =>
      status = 0 ∧ WritesData k.trace input := by
  refine ⟨fun chunks k hrun => ?_, ?_⟩
  · obtain ⟨rest, hinput, hk, hl⟩ := Copying.run hs (by decide) hrun (opened_copying input output)
    have hlen : chunks.length ≤ input.length := by
      have := chunks_length_le hrun
      rw [hinput, List.length_append]
      omega
    refine ⟨⟨rest, hinput.symm⟩, ⟨input.length + 1 - chunks.length, ?_⟩, hk.offset,
      hk.written.offset, hl.writesData⟩
    have hloop := copyLoop_run hrun (input.length + 1 - chunks.length)
    rw [Nat.add_sub_cancel' (by omega)] at hloop
    rw [cpHoles_apply hs]
    exact bind_apply_congr hloop
  · refine (cpHoles_ends hs input output).mono ?_
    rintro status k ⟨hstatus, -, hl⟩
    exact ⟨hstatus, hl.writesData⟩

theorem cpHoles_writes_byte :
    (∀ chunks k, Run (Chunk .eager 3 4) (opened [0, 1] []) chunks k →
      AtLoop .eager [0, 1] [] chunks k) ∧
    Ends (cpHoles .eager) (start [0, 1] []) fun status k =>
      status = 0 ∧ WritesData k.trace [0, 1] :=
  cpHoles_writes Schedule.eager_smooth [0, 1] []

end

end CToys.Cp
