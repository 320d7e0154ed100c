import CToys.Lib.Lines
import CToys.Lib.Scan
import CToys.Malloc.Driver.Trace

/-!
# Trace files

`read_trace` reads a trace from a file: four numbers, and a line for each request.  It does not
look at what `fscanf` returns for a number, so a number that is missing keeps an old value, and
two assertions at the end are all that is checked of the header.

A trace that is accepted has as many requests as the header says, and its greatest index is
the one that the header says.  The indices of frees are not checked, nor that the arrays were
not cut by a multiplication that wrapped: for every other number of indices there is a file
that is accepted, with an index behind the arrays (`readTrace_halts`).

`render` writes a trace in the format of the trace files.  It is read back as it was, with the
sizes of frees aside, which the format does not have (`readTrace_render`).
-/

namespace CToys.Malloc.Driver

open Scan

/-! ## The program -/

/-- `MAXLINE`. -/
def maxLine : Nat := 1024

/-- What the memory from `malloc` and the variable `size` hold before they are written. -/
structure Stale where
  suggHeapsize : Int
  numIds : Int
  numOps : Int
  weight : Int
  size : Nat
  /-- The sizes in the array `ops`. -/
  sizes : Nat → Int

/-- The variables of the loop.  `op_index` is the length of `ops`. -/
structure Requests where
  index : Nat
  size : Nat
  maxIndex : Nat
  /-- The elements of `trace->ops` that were written. -/
  ops : List TraceOp

/-- `assert`. -/
def assert (p : Prop) [Decidable p] : Reader Unit := if p then return () else abort

/-- `trace->ops[op_index]`, behind which `op_index` is increased. -/
def storeOp (numOps : Int) (op : TraceOp) (r : Requests) : Reader Requests :=
  if r.ops.length < capacity numOps 12 then return { r with ops := r.ops ++ [op] }
  else throw .bounds

/-- The cases `'a'` and `'r'`. -/
def readSized (kind : Kind) (numOps : Int) (r : Requests) : Reader Requests := do
  let (index, size) ← scanUU
  let r := { r with index := index.getD r.index, size := size.getD r.size }
  let r ← storeOp numOps ⟨kind, r.index, toInt32 r.size⟩ r
  return { r with maxIndex := if r.index > r.maxIndex then r.index else r.maxIndex }

/-- The case `'f'`.  The format is `%ud`, a number and the letter `d`. -/
def readFree (numOps : Int) (stale : Stale) (r : Requests) : Reader Requests := do
  let index ← scanULit 100
  let r := { r with index := index.getD r.index }
  storeOp numOps ⟨.free, r.index, stale.sizes r.ops.length⟩ r

/-- The loop over the requests. -/
def readRequests (numOps : Int) (stale : Stale) : (left : Nat) → Requests → Reader Requests
  | 0, _ => throw .diverges
  | left + 1, r => do
      match ← scanS with
      | none => return r
      | some type =>
          if type.length ≥ maxLine then throw .bounds
          else
            let c := type.headD 0
            let r ←
              if c = 97 then readSized .alloc numOps r
              else if c = 114 then readSized .realloc numOps r
              else if c = 102 then readFree numOps stale r
              else exit 1
            readRequests numOps stale left r

/-- What follows when the file is open. -/
def readOpened (supply : Supply) (stale : Stale) (contents : List UInt8) : Reader Trace := do
  set contents
  let suggHeapsize := (← scanD).getD stale.suggHeapsize
  let numIds := (← scanD).getD stale.numIds
  let numOps := (← scanD).getD stale.numOps
  let weight := (← scanD).getD stale.weight
  reserve supply 1 (sizeT (numOps * 12))
  reserve supply 2 (sizeT (numIds * 4))
  reserve supply 3 (sizeT (numIds * 4))
  let r ← readRequests numOps stale (contents.length + 1) ⟨0, stale.size, 0, []⟩
  assert (r.maxIndex = sizeT (numIds - 1))
  assert (sizeT numOps = r.ops.length)
  return ⟨suggHeapsize, numIds, weight, r.ops⟩

/-- `read_trace`, where `fopen` are the contents of the files. -/
def readTrace (supply : Supply) (stale : Stale) (fopen : List UInt8 → Option (List UInt8))
    (tracedir filename : List UInt8) : Reader Trace := do
  reserve supply 0 28
  let path := tracedir ++ filename
  if path.length ≥ maxLine then throw .bounds
  else
    match fopen path with
    | some contents => readOpened supply stale contents
    -- the message has 29 characters besides the path
    | none => if path.length + 29 ≥ maxLine then throw .bounds else unixError

/-! ## What is accepted -/

/-- The greatest index of an allocation or a reallocation. -/
def maxIndex : List TraceOp → Nat
  | [] => 0
  | op :: ops => if op.kind = .free then maxIndex ops else max op.index (maxIndex ops)

theorem maxIndex_concat (ops : List TraceOp) (op : TraceOp) : maxIndex (ops ++ [op]) =
    if op.kind = .free then maxIndex ops else max (maxIndex ops) op.index := by
  induction ops with
  | nil => simp only [List.nil_append, maxIndex, Nat.max_comm]
  | cons op' ops ih =>
    simp only [List.cons_append, maxIndex, ih]
    split <;> split <;> simp only [Nat.max_assoc]

theorem index_le_maxIndex {ops : List TraceOp} {op : TraceOp} (hop : op ∈ ops)
    (hkind : op.kind ≠ .free) : op.index ≤ maxIndex ops := by
  induction ops with
  | nil => cases hop
  | cons op' ops ih =>
    rw [maxIndex]
    rcases List.mem_cons.mp hop with rfl | hop
    · rw [if_neg hkind]
      exact Nat.le_max_left ..
    · split
      · exact ih hop
      · exact (ih hop).trans (Nat.le_max_right ..)

/-- It is the index of a request, or all requests are frees. -/
theorem maxIndex_cases (ops : List TraceOp) :
    (maxIndex ops = 0 ∧ ∀ op ∈ ops, op.kind = .free) ∨
      ∃ op ∈ ops, op.kind ≠ .free ∧ op.index = maxIndex ops := by
  induction ops with
  | nil => exact .inl ⟨rfl, nofun⟩
  | cons op ops ih =>
    rw [maxIndex]
    by_cases hkind : op.kind = .free
    · rw [if_pos hkind]
      rcases ih with ⟨hmax, hall⟩ | ⟨op', hmem, h⟩
      · exact .inl ⟨hmax, List.forall_mem_cons.mpr ⟨hkind, hall⟩⟩
      · exact .inr ⟨op', List.mem_cons_of_mem op hmem, h⟩
    rw [if_neg hkind]
    rcases Nat.le_total (maxIndex ops) op.index with hle | hle
    · exact .inr ⟨op, List.mem_cons_self, hkind, (Nat.max_eq_left hle).symm⟩
    rw [Nat.max_eq_right hle]
    rcases ih with ⟨hmax, -⟩ | ⟨op', hmem, h⟩
    · exact .inr ⟨op, List.mem_cons_self, hkind, by omega⟩
    · exact .inr ⟨op', List.mem_cons_of_mem op hmem, h⟩

/-- The loop has read the requests `r.ops`. -/
structure Reading (numOps : Int) (r : Requests) : Prop where
  maxIndex : r.maxIndex = Driver.maxIndex r.ops
  room : r.ops.length ≤ capacity numOps 12

section

variable {numOps : Int} {stale : Stale} {r : Requests} {s : List UInt8}

theorem storeOp_halts {R : Nat → List UInt8 → Prop} (op : TraceOp) : Halts (storeOp numOps op r) s
    (fun r' s' => s' = s ∧ r' = { r with ops := r.ops ++ [op] } ∧
      (r.ops ++ [op]).length ≤ capacity numOps 12) R := by
  unfold storeOp
  split
  · next hroom =>
    refine .pure ⟨rfl, rfl, ?_⟩
    rw [List.length_append]
    exact hroom
  · exact .bounds

theorem readSized_halts {R : Nat → List UInt8 → Prop} {kind : Kind} (hkind : kind ≠ .free)
    (hr : Reading numOps r) : Halts (readSized kind numOps r) s
      (fun r' s' => s'.length ≤ s.length ∧ Reading numOps r') R := by
  unfold readSized
  refine (scanUU_ensures s).halts fun read s₁ h₁ => ?_
  refine (storeOp_halts _).bind ?_
  rintro _ _ ⟨rfl, rfl, hroom⟩
  refine .pure ⟨h₁, ?_, hroom⟩
  dsimp only
  rw [maxIndex_concat, if_neg hkind, hr.maxIndex]
  dsimp only
  split <;> omega

theorem readFree_halts {R : Nat → List UInt8 → Prop} (hr : Reading numOps r) :
    Halts (readFree numOps stale r) s
      (fun r' s' => s'.length ≤ s.length ∧ Reading numOps r') R := by
  unfold readFree
  refine (scanULit_ensures s 100).halts fun index s₁ h₁ => ?_
  refine (storeOp_halts _).mono ?_ fun _ _ h => h
  rintro _ _ ⟨rfl, rfl, hroom⟩
  refine ⟨h₁, ?_, hroom⟩
  dsimp only
  rw [maxIndex_concat, if_pos rfl, hr.maxIndex]

/-- A round reads a word, so the loop ends. -/
theorem readRequests_halts {left : Nat} : ∀ {s : List UInt8} {r : Requests}, s.length < left →
    Reading numOps r → Halts (readRequests numOps stale left r) s
      (fun r' _ => Reading numOps r') fun status _ => status = 1 := by
  induction left with
  | zero =>
    intro s r hleft
    omega
  | succ left ih =>
    intro s r hleft hr
    rw [readRequests]
    refine (scanS_ensures s).halts fun word s₁ h₁ => ?_
    cases word with
    | none => exact .pure hr
    | some type =>
      have hlt : s₁.length < s.length := h₁ nofun
      dsimp only
      split
      · exact .bounds
      have hnext : ∀ r₁ s₂, s₂.length ≤ s₁.length ∧ Reading numOps r₁ →
          Halts (readRequests numOps stale left r₁) s₂ (fun r' _ => Reading numOps r')
            fun status _ => status = 1 :=
        fun r₁ s₂ h => ih (by omega) h.2
      split
      · exact (readSized_halts (by decide : Kind.alloc ≠ .free) hr).bind hnext
      · split
        · exact (readSized_halts (by decide : Kind.realloc ≠ .free) hr).bind hnext
        · split
          · exact (readFree_halts hr).bind hnext
          · exact .bind (T := fun _ _ => False) (.exit rfl) nofun

end

/-- What is known of a trace that was read. -/
structure Accepted (tr : Trace) : Prop where
  /-- The header says which index is the greatest. -/
  ids : maxIndex tr.ops = sizeT (tr.numIds - 1)
  /-- The array of requests was not cut. -/
  room : 12 * tr.ops.length < 2 ^ 32

/-- The indices of allocations and reallocations are in the arrays. -/
def Trace.InArrays (tr : Trace) : Prop :=
  ∀ op ∈ tr.ops, op.kind ≠ .free → op.index < capacity tr.numIds 4

/-- They are exactly if the length of the arrays did not wrap. -/
theorem Accepted.inArrays_iff {tr : Trace} (h : Accepted tr) (hlo : -2 ^ 31 ≤ tr.numIds)
    (hhi : tr.numIds < 2 ^ 31) : tr.InArrays ↔ 0 < tr.numIds ∧ tr.numIds < 2 ^ 30 := by
  have hids := h.ids
  have hiff : maxIndex tr.ops < capacity tr.numIds 4 ↔ 0 < tr.numIds ∧ tr.numIds < 2 ^ 30 := by
    rw [hids]
    unfold capacity sizeT
    omega
  rw [← hiff]
  constructor
  · intro hall
    rcases maxIndex_cases tr.ops with ⟨hzero, -⟩ | ⟨op, hmem, hkind, hindex⟩
    -- without such requests the header has the number 1
    · rw [hiff]
      rw [hzero] at hids
      unfold sizeT at hids
      omega
    · exact hindex ▸ hall op hmem hkind
  · exact fun hlt op hmem hkind => (index_le_maxIndex hmem hkind).trans_lt hlt

theorem reserve_halts {supply : Supply} {call size : Nat} {s : List UInt8} :
    Halts (reserve supply call size) s (fun _ s' => s' = s) fun status _ => status = 1 := by
  unfold reserve
  split
  · exact .pure rfl
  · exact .exit rfl

theorem assert_halts (p : Prop) [Decidable p] {s : List UInt8} :
    Halts (assert p) s (fun _ s' => s' = s ∧ p) fun status _ => status = 134 := by
  unfold assert
  split
  · next hp => exact .pure ⟨rfl, hp⟩
  · exact .exit rfl

/-- How `read_trace` stops without a trace. -/
def Stopped (status : Nat) : Prop := status = 1 ∨ status = 134

theorem readOpened_halts (supply : Supply) (stale : Stale) (contents s : List UInt8) :
    Halts (readOpened supply stale contents) s (fun tr _ => Accepted tr)
      fun status _ => Stopped status := by
  have hreserve : ∀ {call size : Nat} {s : List UInt8}, Halts (reserve supply call size) s
      (fun _ s' => s' = s) fun status _ => Stopped status :=
    reserve_halts.mono (fun _ _ h => h) fun _ _ h => .inl h
  have hassert : ∀ (p : Prop) [Decidable p] {s : List UInt8}, Halts (assert p) s
      (fun _ s' => s' = s ∧ p) fun status _ => Stopped status :=
    fun p _ _ => (assert_halts p).mono (fun _ _ h => h) fun _ _ h => .inr h
  unfold readOpened
  have hset : Ensures (set contents : Reader Unit) s fun _ s' => s' = contents :=
    ⟨(), contents, rfl, rfl⟩
  refine hset.halts ?_
  rintro _ _ rfl
  refine (scanD_ensures _).halts fun sugg s₁ h₁ => ?_
  refine (scanD_ensures _).halts fun ids s₂ h₂ => ?_
  refine (scanD_ensures _).halts fun ops s₃ h₃ => ?_
  refine (scanD_ensures _).halts fun weight s₄ h₄ => ?_
  refine hreserve.bind ?_
  rintro _ _ rfl
  refine hreserve.bind ?_
  rintro _ _ rfl
  refine hreserve.bind ?_
  rintro _ _ rfl
  have hloop : Halts (readRequests (ops.getD stale.numOps) stale _ ⟨0, stale.size, 0, []⟩) _ _ _ :=
    readRequests_halts (Nat.lt_succ_of_le (h₄.trans (h₃.trans (h₂.trans h₁))))
      ⟨rfl, Nat.zero_le _⟩
  refine (hloop.mono (fun _ _ h => h) fun _ _ h => .inl h).bind fun r s₅ hr => ?_
  refine (hassert _).bind ?_
  rintro _ _ ⟨rfl, hids⟩
  refine (hassert _).bind ?_
  rintro _ _ ⟨rfl, hcount⟩
  refine .pure ⟨hr.maxIndex.symm.trans hids, ?_⟩
  have hroom := hr.room
  dsimp only at hroom ⊢
  rw [← hcount] at hroom ⊢
  unfold capacity sizeT at *
  omega

/-- Whatever the file holds, `read_trace` does not loop. -/
theorem readTrace_accepts (supply : Supply) (stale : Stale)
    (fopen : List UInt8 → Option (List UInt8)) (tracedir filename s : List UInt8) :
    Halts (readTrace supply stale fopen tracedir filename) s (fun tr _ => Accepted tr)
      fun status _ => Stopped status := by
  unfold readTrace
  refine (reserve_halts.mono (fun _ _ h => h) fun _ _ h => .inl h).bind fun _ s₁ _ => ?_
  dsimp only
  split
  · exact .bounds
  split
  · exact readOpened_halts ..
  · split
    · exact .bounds
    · exact .exit (.inl rfl)

/-! ## The format -/

/-- The type character of a request. -/
def Kind.letter : Kind → UInt8
  | .alloc => 97
  | .realloc => 114
  | .free => 102

/-- The line of a request, without its newline. -/
def TraceOp.line (op : TraceOp) : List UInt8 :=
  op.kind.letter :: ([32] ++ (numeral 10 op.index ++
    if op.kind = .free then [] else [32] ++ numeral 10 op.size.toNat))

/-- The lines of the header. -/
def Trace.header (tr : Trace) : List (List UInt8) :=
  [intNumeral tr.suggHeapsize, intNumeral tr.numIds, intNumeral tr.ops.length, intNumeral tr.weight]

/-- A trace in the format of the trace files. -/
def render (tr : Trace) : List UInt8 :=
  (tr.header ++ tr.ops.map TraceOp.line).flatMap (· ++ [newline])

/-- The numbers of a request fit the variables. -/
structure TraceOp.Writable (op : TraceOp) : Prop where
  index : op.index < 2 ^ 32
  size : op.kind ≠ .free → 0 ≤ op.size ∧ op.size < 2 ^ 31

/-- The numbers of a trace fit, and the header says which index is the greatest, as a number
without a sign. -/
structure Trace.Writable (tr : Trace) : Prop where
  suggHeapsize : -2 ^ 31 ≤ tr.suggHeapsize ∧ tr.suggHeapsize < 2 ^ 31
  weight : -2 ^ 31 ≤ tr.weight ∧ tr.weight < 2 ^ 31
  numIds : -2 ^ 31 ≤ tr.numIds ∧ tr.numIds < 2 ^ 31
  ids : maxIndex tr.ops = sizeT (tr.numIds - 1)
  room : 12 * tr.ops.length < 2 ^ 32
  ops : ∀ op ∈ tr.ops, op.Writable

/-- A request in the array `ops`.  The size of a free is not written. -/
def TraceOp.stored (op : TraceOp) (size : Int) : TraceOp :=
  if op.kind = .free then { op with size := size } else op

/-- The requests from number `i` on. -/
def storedFrom (stale : Stale) : (i : Nat) → List TraceOp → List TraceOp
  | _, [] => []
  | i, op :: ops => op.stored (stale.sizes i) :: storedFrom stale (i + 1) ops

/-- The trace that `read_trace` makes of it. -/
def Trace.stored (tr : Trace) (stale : Stale) : Trace :=
  { tr with ops := storedFrom stale 0 tr.ops }

section

variable {numOps : Int} {stale : Stale} {r : Requests} {rest : List UInt8} {op : TraceOp}

theorem isSpace_newline : ∀ c ∈ [newline], isSpace c := List.forall_mem_singleton.mpr rfl

theorem isSpace_blank : ∀ c ∈ [(32 : UInt8)], isSpace c := List.forall_mem_singleton.mpr rfl

theorem head_newline (rest : List UInt8) : ∀ c ∈ (newline :: rest).head?, isDigit 10 c = false := by
  rintro _ ⟨⟩
  decide

theorem storeOp_returns {s : List UInt8} (hroom : r.ops.length < capacity numOps 12) :
    Returns (storeOp numOps op r) s { r with ops := r.ops ++ [op] } s := by
  unfold storeOp
  rw [if_pos hroom]
  exact .pure _ _

/-- The line of an allocation or a reallocation, behind its type. -/
theorem readSized_returns (rest : List UInt8) (hop : op.Writable) (hkind : op.kind ≠ .free)
    (hroom : r.ops.length < capacity numOps 12) : ∃ r',
    Returns (readSized op.kind numOps r) ([32] ++ (numeral 10 op.index ++
      ([32] ++ (numeral 10 op.size.toNat ++ newline :: rest)))) r' (newline :: rest) ∧
      r'.ops = r.ops ++ [op] := by
  obtain ⟨hlo, hhi⟩ := hop.size hkind
  have hread := scanUU_numerals (n := op.size.toNat) hop.index (by omega) isSpace_blank
    isSpace_blank (List.cons_ne_nil _ _) (head_newline rest)
  have hsize : toInt32 op.size.toNat = op.size := by
    unfold toInt32
    omega
  have hstore : Returns (storeOp numOps op { r with index := op.index, size := op.size.toNat })
      (newline :: rest) _ _ := storeOp_returns hroom
  refine ⟨⟨op.index, op.size.toNat, if op.index > r.maxIndex then op.index else r.maxIndex,
    r.ops ++ [op]⟩, hread.bind ?_, rfl⟩
  simp only [Option.getD_some, hsize]
  exact hstore.bind (.pure _ _)

/-- The line of a free, behind its type. -/
theorem readFree_returns (stale : Stale) (rest : List UInt8) (hop : op.Writable)
    (hkind : op.kind = .free) (hroom : r.ops.length < capacity numOps 12) : ∃ r',
    Returns (readFree numOps stale r) ([32] ++ (numeral 10 op.index ++ newline :: rest)) r'
      (newline :: rest) ∧ r'.ops = r.ops ++ [op.stored (stale.sizes r.ops.length)] := by
  have hread := scanULit_numeral (c := 100) hop.index isSpace_blank (head_newline rest) nofun
  have hstore : Returns (storeOp numOps ⟨.free, op.index, stale.sizes r.ops.length⟩
      { r with index := op.index }) (newline :: rest) _ _ := storeOp_returns hroom
  refine ⟨⟨op.index, r.size, r.maxIndex, r.ops ++ [op.stored (stale.sizes r.ops.length)]⟩,
    hread.bind ?_, rfl⟩
  rw [TraceOp.stored, if_pos hkind, hkind]
  exact hstore

/-- A round reads a line. -/
theorem readRequests_line (stale : Stale) (rest : List UInt8) (hop : op.Writable)
    (hroom : r.ops.length < capacity numOps 12) (left : Nat) : ∃ r',
    r'.ops = r.ops ++ [op.stored (stale.sizes r.ops.length)] ∧
      readRequests numOps stale (left + 1) r (newline :: (op.line ++ newline :: rest)) =
        readRequests numOps stale left r' (newline :: rest) := by
  have hword : ∀ tail, Returns scanS ([newline] ++ ([op.kind.letter] ++ 32 :: tail))
      (some [op.kind.letter]) (32 :: tail) := by
    intro tail
    refine scanS_word isSpace_newline (List.cons_ne_nil _ _) ?_ ?_
    · cases op.kind <;> exact List.forall_mem_singleton.mpr rfl
    · rintro _ ⟨⟩
      decide
  by_cases hkind : op.kind = .free
  · obtain ⟨r', hread, hops⟩ := readFree_returns stale rest hop hkind hroom
    refine ⟨r', hops, ?_⟩
    have hw := hword (numeral 10 op.index ++ newline :: rest)
    rw [TraceOp.line, if_pos hkind, List.append_nil, readRequests]
    refine hw.bind_apply.trans ?_
    rw [hkind]
    exact hread.bind_apply
  · obtain ⟨r', hread, hops⟩ := readSized_returns rest hop hkind hroom
    refine ⟨r', ?_, ?_⟩
    · rw [hops, TraceOp.stored, if_neg hkind]
    have hw := hword (numeral 10 op.index ++ ([32] ++ (numeral 10 op.size.toNat ++
      newline :: rest)))
    rw [TraceOp.line, if_neg hkind, readRequests]
    simp only [List.append_assoc, List.cons_append, List.nil_append] at hw hread ⊢
    refine hw.bind_apply.trans ?_
    cases hk : op.kind with
    | free => exact absurd hk hkind
    | alloc =>
      rw [hk] at hread
      exact hread.bind_apply
    | realloc =>
      rw [hk] at hread
      exact hread.bind_apply

/-- The lines of some requests, each with its newline. -/
def lines (ops : List TraceOp) : List UInt8 := ops.flatMap fun op => op.line ++ [newline]

theorem lines_cons (op : TraceOp) (ops : List TraceOp) :
    lines (op :: ops) = op.line ++ newline :: lines ops := by
  rw [lines, List.flatMap_cons, List.append_assoc]
  rfl

theorem length_le_lines (ops : List TraceOp) : ops.length ≤ (lines ops).length := by
  induction ops with
  | nil => exact le_rfl
  | cons op ops ih =>
    rw [lines_cons, List.length_append, List.length_cons, List.length_cons]
    omega

/-- The loop reads all lines. -/
theorem readRequests_lines (stale : Stale) {ops : List TraceOp} :
    ∀ {left : Nat} {r : Requests}, ops.length < left → (∀ op ∈ ops, op.Writable) →
    r.ops.length + ops.length ≤ capacity numOps 12 →
    ∃ r', Returns (readRequests numOps stale left r) (newline :: lines ops) r' [] ∧
      r'.ops = r.ops ++ storedFrom stale r.ops.length ops := by
  induction ops with
  | nil =>
    rintro (_ | left) r hleft - -
    · exact absurd hleft (Nat.not_lt_zero _)
    refine ⟨r, ?_, (List.append_nil _).symm⟩
    rw [readRequests]
    exact (scanS_end isSpace_newline).bind (.pure _ _)
  | cons op ops ih =>
    rintro (_ | left) r hleft hops hroom
    · exact absurd hleft (Nat.not_lt_zero _)
    rw [List.length_cons] at hleft hroom
    obtain ⟨hop, hops⟩ := List.forall_mem_cons.mp hops
    have hlt : r.ops.length < capacity numOps 12 := by omega
    obtain ⟨r₁, hr₁, hline⟩ := readRequests_line stale (lines ops) hop hlt left
    have hlen : r₁.ops.length = r.ops.length + 1 := by
      rw [hr₁, List.length_append, List.length_singleton]
    have hroom₁ : r₁.ops.length + ops.length ≤ capacity numOps 12 := by omega
    obtain ⟨r', hret, hr'⟩ := ih (Nat.lt_of_succ_lt_succ hleft) hops hroom₁
    refine ⟨r', ?_, ?_⟩
    · rw [lines_cons]
      exact hline.trans hret
    · rw [hr', hlen, hr₁, storedFrom, List.append_assoc, List.singleton_append]

/-- The index of a stored request. -/
theorem maxIndex_storedFrom (i : Nat) (ops : List TraceOp) :
    maxIndex (storedFrom stale i ops) = maxIndex ops := by
  induction ops generalizing i with
  | nil => rfl
  | cons op ops ih =>
    rw [storedFrom, maxIndex, maxIndex, ih]
    unfold TraceOp.stored
    split <;> rfl

theorem length_storedFrom (i : Nat) (ops : List TraceOp) :
    (storedFrom stale i ops).length = ops.length := by
  induction ops generalizing i with
  | nil => rfl
  | cons op ops ih => rw [storedFrom, List.length_cons, ih, List.length_cons]

/-- A size that is not written does not matter. -/
theorem legal_storedFrom {numIds : Int} {live : Live} (i : Nat) (ops : List TraceOp) :
    Legal numIds live (storedFrom stale i ops) ↔ Legal numIds live ops := by
  induction ops generalizing live i with
  | nil => rfl
  | cons op ops ih =>
    rw [storedFrom, Legal, Legal]
    unfold TraceOp.stored
    split
    · next hkind =>
      simp only [TraceOp.Legal, Live.next, hkind]
      rw [ih]
    · rw [ih]

end

/-- The header of the file, and its lines. -/
theorem render_eq (tr : Trace) : render tr = intNumeral tr.suggHeapsize ++
    ([newline] ++ (intNumeral tr.numIds ++ ([newline] ++ (intNumeral tr.ops.length ++
      ([newline] ++ (intNumeral tr.weight ++ newline :: lines tr.ops)))))) := by
  simp [render, Trace.header, lines, List.flatMap_map]

/-- `malloc` serves what `read_trace` asks for. -/
structure Grants (supply : Supply) (tr : Trace) : Prop where
  record : supply 0 28 = true
  ops : supply 1 (12 * tr.ops.length) = true
  blocks : supply 2 (sizeT (tr.numIds * 4)) = true
  blockSizes : supply 3 (sizeT (tr.numIds * 4)) = true

theorem plenty_grants (tr : Trace) : Grants plenty tr := ⟨rfl, rfl, rfl, rfl⟩

theorem assert_returns {p : Prop} [Decidable p] (h : p) (s : List UInt8) :
    Returns (assert p) s () s := by
  unfold assert
  rw [if_pos h]
  exact .pure _ _

theorem sizeT_natCast {n : Nat} (h : n < 2 ^ 32) : sizeT n = n := by
  unfold sizeT
  omega

/-- The size of an array that does not wrap. -/
theorem sizeT_array {n elem : Nat} (h : elem * n < 2 ^ 32) :
    sizeT ((n : Int) * elem) = elem * n := by
  rw [← Nat.cast_mul, sizeT_natCast (Nat.mul_comm n elem ▸ h), Nat.mul_comm]

theorem capacity_array {n elem : Nat} (h : elem * n < 2 ^ 32) (helem : 0 < elem) :
    capacity n elem = n := by
  rw [capacity, sizeT_array h, Nat.mul_div_cancel_left n helem]

/-- The loop reads the requests of a file. -/
theorem readRequests_render {tr : Trace} (hw : tr.Writable) (stale : Stale) :
    ∃ r, Returns (readRequests tr.ops.length stale ((render tr).length + 1)
        ⟨0, stale.size, 0, []⟩) (newline :: lines tr.ops) r [] ∧
      r.ops = (tr.stored stale).ops ∧ r.maxIndex = maxIndex tr.ops := by
  have hlines := length_le_lines tr.ops
  have hlen : (newline :: lines tr.ops).length < (render tr).length + 1 := by
    rw [render_eq]
    simp only [List.length_append, List.length_cons]
    omega
  have hcap : ([] : List TraceOp).length + tr.ops.length ≤ capacity tr.ops.length 12 := by
    rw [capacity_array hw.room (by decide), List.length_nil, Nat.zero_add]
  obtain ⟨r, hret, hops⟩ := readRequests_lines stale (r := ⟨0, stale.size, 0, []⟩)
    ((Nat.lt_succ_of_le hlines).trans hlen) hw.ops hcap
  have hreading : Reading tr.ops.length r :=
    (readRequests_halts hlen ⟨rfl, Nat.zero_le _⟩).of_returns hret
  exact ⟨r, hret, hops, by rw [hreading.maxIndex, hops]; exact maxIndex_storedFrom 0 tr.ops⟩

theorem readOpened_render {supply : Supply} {tr : Trace} (hw : tr.Writable)
    (hg : Grants supply tr) (stale : Stale) (s : List UInt8) :
    Returns (readOpened supply stale (render tr)) s (tr.stored stale) [] := by
  have hroom := hw.room
  have hops₁ : -2 ^ 31 ≤ (tr.ops.length : Int) ∧ (tr.ops.length : Int) < 2 ^ 31 := by omega
  obtain ⟨r, hret, hops, hmax⟩ := readRequests_render hw stale
  have hset : Returns (set (render tr) : Reader Unit) s () (render tr) := rfl
  have hsize : supply 1 (sizeT ((tr.ops.length : Int) * 12)) = true := by
    rw [show (12 : Int) = (12 : Nat) from rfl, sizeT_array hroom]
    exact hg.ops
  have hlen : tr.ops.length < 2 ^ 31 := by omega
  have hcount : sizeT tr.ops.length = r.ops.length := by
    rw [hops, Trace.stored, length_storedFrom]
    exact sizeT_natCast (hlen.trans (by decide))
  have hlast : r.maxIndex = sizeT (tr.numIds - 1) := hmax.trans hw.ids
  have hnil : ∀ c ∈ ([] : List UInt8), isSpace c := nofun
  unfold readOpened
  refine hset.bind ?_
  rw [render_eq]
  refine (scanD_intNumeral hw.suggHeapsize.1 hw.suggHeapsize.2 hnil (head_newline _)).bind ?_
  refine (scanD_intNumeral hw.numIds.1 hw.numIds.2 isSpace_newline (head_newline _)).bind ?_
  refine (scanD_intNumeral hops₁.1 hops₁.2 isSpace_newline (head_newline _)).bind ?_
  refine (scanD_intNumeral hw.weight.1 hw.weight.2 isSpace_newline (head_newline _)).bind ?_
  refine (reserve_returns hsize _).bind ?_
  refine (reserve_returns hg.blocks _).bind ((reserve_returns hg.blockSizes _).bind ?_)
  rw [← render_eq]
  refine hret.bind ((assert_returns hlast _).bind ((assert_returns hcount _).bind ?_))
  rw [hops]
  exact .pure _ _

theorem readTrace_returns {supply : Supply} {tr : Trace} (hw : tr.Writable)
    (hg : Grants supply tr) (stale : Stale) {fopen : List UInt8 → Option (List UInt8)}
    {tracedir filename : List UInt8} (hpath : (tracedir ++ filename).length < maxLine)
    (hfile : fopen (tracedir ++ filename) = some (render tr)) (s : List UInt8) :
    Returns (readTrace supply stale fopen tracedir filename) s (tr.stored stale) [] := by
  unfold readTrace
  refine (reserve_returns hg.record s).bind ?_
  dsimp only
  rw [if_neg (Nat.not_le.mpr hpath), hfile]
  exact readOpened_render hw hg stale s

/-- A trace that is written to a file is read back, with the sizes of frees aside.  It is legal if
it was. -/
theorem readTrace_render {supply : Supply} {tr : Trace} (hw : tr.Writable)
    (hg : Grants supply tr) (stale : Stale) {fopen : List UInt8 → Option (List UInt8)}
    {tracedir filename : List UInt8} (hpath : (tracedir ++ filename).length < maxLine)
    (hfile : fopen (tracedir ++ filename) = some (render tr)) (s : List UInt8) :
    Returns (readTrace supply stale fopen tracedir filename) s (tr.stored stale) [] ∧
      ((tr.stored stale).Legal ↔ tr.Legal) :=
  ⟨readTrace_returns hw hg stale hpath hfile s, legal_storedFrom 0 tr.ops⟩

/-- A block that is moved and freed. -/
def short : Trace := ⟨20000, 1, 1, [⟨.alloc, 0, 2040⟩, ⟨.realloc, 0, 4072⟩, ⟨.free, 0, 0⟩]⟩

theorem short_writable : short.Writable where
  suggHeapsize := by decide
  weight := by decide
  numIds := by decide
  ids := by decide
  room := by decide
  ops := by
    simp only [short, List.forall_mem_cons]
    exact ⟨⟨by decide, by decide⟩, ⟨by decide, by decide⟩, ⟨by decide, by decide⟩, nofun⟩

/-- It is read back. -/
theorem readTrace_short :
    Returns (readTrace plenty ⟨0, 0, 0, 0, 0, fun _ => 7⟩ (fun _ => some (render short))
        [] [97]) [] (short.stored ⟨0, 0, 0, 0, 0, fun _ => 7⟩) [] ∧
      ((short.stored ⟨0, 0, 0, 0, 0, fun _ => 7⟩).Legal ↔ short.Legal) :=
  readTrace_render short_writable (plenty_grants short) _ (by decide) rfl []

/-! ## Indices behind the arrays -/

/-- A trace with one block, whose index is the last one that the header says. -/
def lastIndex (numIds : Int) : Trace := ⟨0, numIds, 1, [⟨.alloc, sizeT (numIds - 1), 1⟩]⟩

theorem lastIndex_writable {numIds : Int} (hlo : -2 ^ 31 ≤ numIds) (hhi : numIds < 2 ^ 31) :
    (lastIndex numIds).Writable where
  suggHeapsize := (by decide : -2 ^ 31 ≤ (0 : Int) ∧ (0 : Int) < 2 ^ 31)
  weight := (by decide : -2 ^ 31 ≤ (1 : Int) ∧ (1 : Int) < 2 ^ 31)
  numIds := ⟨hlo, hhi⟩
  ids := Nat.max_zero _
  room := (by decide : 12 * 1 < 2 ^ 32)
  ops := by
    refine List.forall_mem_singleton.mpr ⟨?_, fun _ => ?_⟩
    · change sizeT (numIds - 1) < 2 ^ 32
      unfold sizeT
      omega
    · exact (by decide : (0 : Int) ≤ 1 ∧ (1 : Int) < 2 ^ 31)

/-- Whatever the file holds and whatever calls of `malloc` fail, `read_trace` does not loop.  A
trace that it returns has the greatest index that the header says, and its indices are in the
arrays exactly if the header has between 1 and `2 ^ 30 - 1` of them.  For every other number
there is a file that is accepted. -/
theorem readTrace_halts :
    (∀ (supply : Supply) (stale : Stale) (fopen : List UInt8 → Option (List UInt8))
      (tracedir filename s : List UInt8),
      Halts (readTrace supply stale fopen tracedir filename) s
        (fun tr _ => Accepted tr ∧ (-2 ^ 31 ≤ tr.numIds → tr.numIds < 2 ^ 31 →
          (tr.InArrays ↔ 0 < tr.numIds ∧ tr.numIds < 2 ^ 30)))
        fun status _ => Stopped status) ∧
    ∀ numIds : Int, -2 ^ 31 ≤ numIds → numIds < 2 ^ 31 → ¬ (0 < numIds ∧ numIds < 2 ^ 30) →
      ∃ contents tr, tr.numIds = numIds ∧ ¬ tr.InArrays ∧
        ∀ (stale : Stale) (tracedir filename s : List UInt8),
          (tracedir ++ filename).length < maxLine →
          Returns (readTrace plenty stale (fun _ => some contents) tracedir filename) s tr [] := by
  refine ⟨fun supply stale fopen tracedir filename s => ?_, fun numIds hlo hhi hout => ?_⟩
  · exact (readTrace_accepts supply stale fopen tracedir filename s).mono
      (fun tr _ h => ⟨h, h.inArrays_iff⟩) fun _ _ h => h
  · have haccepted : Accepted (lastIndex numIds) :=
      ⟨(lastIndex_writable hlo hhi).ids, (lastIndex_writable hlo hhi).room⟩
    refine ⟨render (lastIndex numIds), lastIndex numIds, rfl,
      fun h => hout ((haccepted.inArrays_iff hlo hhi).mp h), ?_⟩
    intro stale tracedir filename s hpath
    exact readTrace_returns (lastIndex_writable hlo hhi) (plenty_grants _) stale hpath rfl s

end CToys.Malloc.Driver
