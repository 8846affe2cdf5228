import Wasm.Proofs.Format.CustomSections

/-!
# Size of decoded modules

A file may state any count, but it has to pay for what it counts: every entry
of a decoded module has a byte of the file to itself. So a module is never
larger than its file, and a loop ends at a round that fails, however many rounds
it was told to do, before it has done more of them than there are bytes. Locals
are the one thing that a count can multiply, and their number has a bound of
its own.
-/

namespace Wasm

namespace Format

/-- No function that was read declares more locals than it can. -/
def Draft.FewLocals (d : Draft) : Prop := ∀ f ∈ d.code, f.locals.size ≤ Reader.maxLocals

namespace Reader

variable {α β : Type}

-- ---------------------------------------------------------------------------
-- Bytes for entries
-- ---------------------------------------------------------------------------

/-- A function is no larger than its frame, in front of which its size stands. -/
theorem pays_framedFunction : Pays 0 framedFunction fun f => 1 + f.entries := by
  refine Pays.bind pays_basis.u32 fun size => ?_
  intro w f w' h
  obtain ⟨inner, v, hframe, h⟩ := bind_eq_ok_iff.mp h
  obtain ⟨⟨f', rest⟩, v', hwithin, h⟩ := bind_eq_ok_iff.mp h
  cases h
  obtain ⟨hentry, rfl⟩ := within_eq_ok hwithin
  obtain ⟨-, -, hbytes⟩ := frame_eq_ok hframe
  have hpays := pays_bodyBasis.functionEntry hentry
  rw [hbytes, List.length_append]
  dsimp only
  omega

theorem pays_sectionBasis : SectionBasis Pays where
  toBasis := pays_basis
  bytes := pays_bytes
  name := by
    intro w s w' h
    obtain ⟨length, v, hlength, -⟩ := bind_eq_ok_iff.mp h
    rw [name_of_u32 hlength] at h
    obtain ⟨bs, v', hbs, h⟩ := bind_eq_ok_iff.mp h
    have h₁ := pays_basis.u32 hlength
    have h₂ := pays_bytes length.toNat hbs
    cases hutf8 : String.fromUTF8? bs.toByteArray with
    | some s' =>
      rw [hutf8] at h
      cases h
      dsimp only at h₁ ⊢
      omega
    | none =>
      rw [hutf8] at h
      cases h
  cut _ _ _ := nofun
  ofConstInstrs h := Pays.bind pays_bodyBasis.remaining fun n => h (n + 1)
  framedFunction := pays_framedFunction

theorem pays_payload (d : Draft) (kind : SectionKind) :
    Pays d.entries (payload d kind) Draft.entries :=
  pays_sectionBasis.payload_all pays_bodyBasis.remaining d kind

/-- The readers of the items of vectors. -/
inductive VectorItem : {α : Type} → Reader α → Prop where
  | valueType : VectorItem valueType
  | u32 : VectorItem u32
  | funcType : VectorItem funcType
  | importEntry : VectorItem importEntry
  | tableType : VectorItem tableType
  | limits : VectorItem limits
  | global : VectorItem global
  | exportEntry : VectorItem exportEntry
  | element : VectorItem element
  | framedFunction : VectorItem framedFunction
  | data : VectorItem data

theorem VectorItem.takes_one {item : Reader α} (h : VectorItem item) : Takes 1 item := by
  cases h with
  | valueType => exact pays_sectionBasis.valueType
  | u32 => exact pays_sectionBasis.u32
  | funcType => exact pays_sectionBasis.funcType.takes fun t => by unfold FuncType.entries; omega
  | importEntry => exact pays_sectionBasis.importEntry
  | tableType => exact pays_sectionBasis.tableType
  | limits => exact pays_sectionBasis.limits
  | global => exact pays_sectionBasis.global.takes fun g => Nat.le_add_right 1 _
  | exportEntry => exact pays_sectionBasis.exportEntry
  | element =>
    exact pays_sectionBasis.element.takes fun e => by unfold ElementSegment.entries; omega
  | framedFunction => exact pays_framedFunction.takes fun f => Nat.le_add_right 1 _
  | data => exact pays_sectionBasis.data.takes fun d => by unfold DataSegment.entries; omega

-- ---------------------------------------------------------------------------
-- Locals
-- ---------------------------------------------------------------------------

theorem gives_localGroups (n : Nat) {acc : Array ValueType} (hacc : acc.size ≤ maxLocals) :
    Gives (localGroups n acc) fun locals => locals.size ≤ maxLocals := by
  induction n generalizing acc with
  | zero => exact Gives.pure hacc
  | succ n ih =>
    refine Gives.after fun count => Gives.after fun type => ?_
    split
    · exact Gives.throw _
    · rename_i hcount
      refine ih ?_
      rw [Array.size_append, Array.size_replicate]
      exact Nat.le_of_not_lt hcount

theorem gives_functionEntry_locals :
    Gives functionEntry fun f => f.locals.size ≤ maxLocals := by
  refine Gives.after fun n => (gives_localGroups _ (Nat.zero_le _)).bind fun locals hlocals => ?_
  refine Gives.after fun c => Gives.after fun ended => ?_
  split
  · exact Gives.pure hlocals
  · exact Gives.throw _

theorem gives_framedFunction_locals :
    Gives framedFunction fun f => f.locals.size ≤ maxLocals := by
  refine Gives.after fun size => Gives.after fun inner => ?_
  intro w f w' h
  obtain ⟨⟨f', rest⟩, v, hwithin, h⟩ := bind_eq_ok_iff.mp h
  cases h
  exact gives_functionEntry_locals (within_eq_ok hwithin).1

theorem gives_payload_fewLocals {d : Draft} (h : d.FewLocals) (kind : SectionKind) :
    Gives (payload d kind) Draft.FewLocals := by
  cases kind with
  | code =>
    exact (gives_vector gives_framedFunction_locals).bind fun fs hfs => Gives.pure hfs.2
  | custom => exact .after fun _ => .after fun _ => .after fun _ => .pure h
  | _ => exact .after fun _ => .pure h

end Reader

-- ---------------------------------------------------------------------------
-- Modules
-- ---------------------------------------------------------------------------

theorem Draft.eq_of_advance? {d d' : Draft} {kind : SectionKind} (h : d.advance? kind = some d') :
    ∃ rank, d' = { d with lastRank := rank } := by
  unfold Draft.advance? at h
  split at h
  · cases h
    exact ⟨d.lastRank, rfl⟩
  · split at h
    · cases h
    · cases h
      exact ⟨kind.rank, rfl⟩

namespace Chunk

variable {d d' : Draft}

/-- A section adds no more entries than it has bytes, and no function with too
    many locals. -/
theorem Adds.sized {c : Chunk} (h : c.Adds d d') :
    d'.entries ≤ d.entries + c.bytes.length ∧
      (d.FewLocals → d'.FewLocals) := by
  obtain ⟨kind, d₁, -, hadvance, offset, stop, hpayload⟩ := h
  obtain ⟨rank, rfl⟩ := Draft.eq_of_advance? hadvance
  constructor
  · have hpays := Reader.pays_payload _ kind hpayload
    have hbytes : c.bytes.length = c.size.length + c.contents.length + 1 := by
      simp [bytes, resized]
    simp only [Draft.entries, List.length_nil] at hpays ⊢
    omega
  · intro hlocals
    exact Reader.gives_payload_fewLocals (d := { d with lastRank := rank }) hlocals kind hpayload

theorem AddAll.sized {chunks : List Chunk} (h : AddAll chunks d d') :
    d'.entries ≤ d.entries + (chunks.flatMap bytes).length ∧
      (d.FewLocals → d'.FewLocals) := by
  induction chunks generalizing d with
  | nil =>
    cases h
    exact ⟨Nat.le_refl _, fun hd => hd⟩
  | cons c chunks ih =>
    obtain ⟨d₁, hc, hchunks⟩ := h
    obtain ⟨hentries, hlocals⟩ := hc.sized
    obtain ⟨hentries', hlocals'⟩ := ih hchunks
    rw [List.flatMap_cons, List.length_append]
    exact ⟨by omega, fun hd => hlocals' (hlocals hd)⟩

end Chunk

/-- A function pays for its body with its code, and for itself with its type. -/
theorem entries_zipWith (types : Array UInt32) (code : Array Reader.FunctionCode) :
    ((types.zipWith (fun type c => ⟨type, c.locals, c.body⟩) code).map Function.entries).sum ≤
      types.size + (code.map Reader.FunctionCode.entries).sum := by
  obtain ⟨types⟩ := types
  obtain ⟨code⟩ := code
  simp only [List.zipWith_toArray, List.map_toArray, List.sum_toArray, List.size_toArray]
  induction types generalizing code with
  | nil => simp
  | cons type types ih =>
    cases code with
    | nil => simp
    | cons c code =>
      have := ih code
      simp only [List.zipWith_cons_cons, List.map_cons, List.sum_cons, List.length_cons,
        Function.entries, Reader.FunctionCode.entries] at this ⊢
      omega

theorem Draft.finish_sized {d : Draft} {m : Module} (h : d.finish = .ok m) :
    m.entries ≤ d.entries ∧
      (d.FewLocals → ∀ f ∈ m.functions, f.locals.size ≤ Reader.maxLocals) := by
  obtain ⟨-, -, rfl⟩ := Draft.finish_eq_ok_iff.mp h
  constructor
  · have hfunctions := entries_zipWith d.funcTypes d.code
    simp only [Draft.entries, Module.entries]
    omega
  · intro hlocals f hf
    obtain ⟨i, hi, rfl⟩ := Array.mem_iff_getElem.mp hf
    rw [Array.getElem_zipWith]
    exact hlocals _ (Array.getElem_mem _)

theorem decode_sized {bytes : List UInt8} {m : Module} (h : decode bytes = .ok m) :
    m.entries ≤ bytes.length ∧ ∀ f ∈ m.functions, f.locals.size ≤ Reader.maxLocals := by
  obtain ⟨body, -, -, rfl, -⟩ := sections_of_decode h
  obtain ⟨chunks, d, rfl, hadds, hfinish, -⟩ := decode_header_eq_ok_iff.mp h
  obtain ⟨hentries, hlocals⟩ := hadds.sized
  obtain ⟨hentries', hlocals'⟩ := Draft.finish_sized hfinish
  have hempty : Draft.entries {} = 0 := by simp [Draft.entries, Module.entries]
  rw [List.length_append]
  exact ⟨by omega, hlocals' (hlocals fun f hf => absurd hf (Array.not_mem_empty f))⟩

-- ---------------------------------------------------------------------------
-- Counted loops
-- ---------------------------------------------------------------------------

namespace Reader

variable {α β : Type}

/-- So many rounds succeed one after the other, each on what the one before it
    left. -/
inductive Rounds (step : β → Reader β) : Nat → β → Window → β → Window → Prop where
  | zero (b : β) (w : Window) : Rounds step 0 b w b w
  | succ {k : Nat} {b b₁ b' : β} {w w₁ w' : Window} (hstep : step b w = .ok b₁ w₁)
      (hrest : Rounds step k b₁ w₁ b' w') : Rounds step (k + 1) b w b' w'

theorem Rounds.length_le {step : β → Reader β} (htakes : ∀ b, Takes 1 (step b)) {k : Nat}
    {b b' : β} {w w' : Window} (h : Rounds step k b w b' w') :
    w'.bytes.length + k ≤ w.bytes.length := by
  induction h with
  | zero => exact Nat.le_refl _
  | succ hstep _ ih =>
    have := htakes _ hstep
    omega

/-- The number of rounds that a loop told to do `n` of them gets done: all, or
    those before one that fails, and the loop fails with it. -/
inductive Done (loop : Nat → β → Reader β) (step : β → Reader β) (n : Nat) (b : β)
    (w : Window) : Nat → Prop where
  | all {b' : β} {w' : Window} (hrounds : Rounds step n b w b' w')
      (hloop : loop n b w = .ok b' w') : Done loop step n b w n
  | failed {k : Nat} {b' : β} {v v' : Window} {e : Error} (hk : k < n)
      (hrounds : Rounds step k b w b' v) (hstep : step b' v = .error e v')
      (hloop : loop n b w = .error e v') : Done loop step n b w k

theorem exists_done {loop : Nat → β → Reader β} {step : β → Reader β}
    (hzero : ∀ b, loop 0 b = pure b) (hsucc : ∀ n b, loop (n + 1) b = step b >>= loop n)
    (n : Nat) (b : β) (w : Window) : ∃ k, Done loop step n b w k := by
  induction n generalizing b w with
  | zero => exact ⟨0, .all (.zero b w) (by rw [hzero]; rfl)⟩
  | succ n ih =>
    cases hstep : step b w with
    | error e v =>
      refine ⟨0, .failed (Nat.succ_pos n) (.zero b w) hstep ?_⟩
      rw [hsucc, bind_eq_error hstep]
    | ok b₁ w₁ =>
      have hloop : loop (n + 1) b w = loop n b₁ w₁ := by rw [hsucc, bind_eq_of_ok hstep]
      obtain ⟨k, hdone⟩ := ih b₁ w₁
      cases hdone with
      | all hrounds hall => exact ⟨n + 1, .all (.succ hstep hrounds) (hloop.trans hall)⟩
      | failed hk hrounds hfail hall =>
        exact ⟨_, .failed (Nat.succ_lt_succ hk) (.succ hstep hrounds) hfail (hloop.trans hall)⟩

/-- Reads an item, after those in `acc`. -/
def nextItem (item : Reader α) (acc : Array α) : Reader (Array α) := return acc.push (← item)

/-- Reads a group of equal locals, after those in `acc`. -/
def nextGroup (acc : Array ValueType) : Reader (Array ValueType) := do
  let count ← u32
  let type ← valueType
  if maxLocals < acc.size + count.toNat then malformed .tooManyLocals
  else return acc ++ Array.replicate count.toNat type

/-- The loops that do what a number in the file tells them to, with one round
    of each. -/
inductive CountedLoop : {β : Type} → (Nat → β → Reader β) → (β → Reader β) → Prop where
  | items {α : Type} {item : Reader α} (h : VectorItem item) :
      CountedLoop (items item) (nextItem item)
  | localGroups : CountedLoop localGroups nextGroup

theorem items_succ (item : Reader α) (n : Nat) (acc : Array α) :
    items item (n + 1) acc = nextItem item acc >>= items item n := by
  simp [items, nextItem]

theorem localGroups_succ (n : Nat) (acc : Array ValueType) :
    localGroups (n + 1) acc = nextGroup acc >>= localGroups n := by
  simp only [localGroups, nextGroup, bind_assoc]
  congr 1
  funext count
  congr 1
  funext type
  split <;> rfl

namespace CountedLoop

variable {loop : Nat → β → Reader β} {step : β → Reader β}

theorem takes_one (h : CountedLoop loop step) (b : β) : Takes 1 (step b) := by
  cases h with
  | items h => exact h.takes_one.map _
  | localGroups =>
    have hgroup : Pays 0 (nextGroup b) fun _ => 1 := by
      refine pays_basis.bind pays_basis.u32 fun count => ?_
      refine pays_basis.next pays_basis.valueType fun type => ?_
      split
      · exact pays_basis.malformed
      · exact pays_basis.pure (Nat.le_add_right 1 1)
    exact hgroup

theorem loop_succ (h : CountedLoop loop step) (n : Nat) (b : β) :
    loop (n + 1) b = step b >>= loop n := by
  cases h with
  | items => exact items_succ _ n b
  | localGroups => exact localGroups_succ n b

theorem loop_zero (h : CountedLoop loop step) (b : β) : loop 0 b = pure b := by
  cases h with
  | items | localGroups => rfl

theorem exists_rounds (h : CountedLoop loop step) (n : Nat) (b : β) (w : Window) :
    ∃ k, Done loop step n b w k :=
  exists_done h.loop_zero h.loop_succ n b w

/-- Every round that is done takes a byte. -/
theorem rounds_le (h : CountedLoop loop step) {n k : Nat} {b : β} {w : Window}
    (hdone : Done loop step n b w k) : k ≤ w.bytes.length := by
  cases hdone with
  | all hrounds _ | failed _ hrounds _ _ =>
    have := hrounds.length_le h.takes_one
    omega

end CountedLoop

end Reader

/-- A module has no more entries than its file has bytes, and a function at most
    50000 locals. No count makes a loop do more rounds than there are bytes left
    when it starts. -/
theorem decode_bounded_by_input :
    (∀ {bytes : List UInt8} {m : Module}, decode bytes = .ok m →
      m.entries ≤ bytes.length ∧ ∀ f ∈ m.functions, f.locals.size ≤ 50000) ∧
    ∀ {β : Type} {loop : Nat → β → Reader β} {step : β → Reader β},
      Reader.CountedLoop loop step → ∀ (n : Nat) (b : β) (w : Window),
        (∃ k, Reader.Done loop step n b w k) ∧
          ∀ k, Reader.Done loop step n b w k → k ≤ w.bytes.length :=
  ⟨decode_sized, fun h n b w => ⟨h.exists_rounds n b w, fun _ hdone => h.rounds_le hdone⟩⟩

end Format

/-- A function with two locals whose branch has two targets and a default. -/
def switch : Module where
  types := #[{}]
  functions := #[{
    type := 0, locals := #[.i32, .i32]
    body := (Code.plain (.const (.i32 0)) <| .plain (.brTable #[0, 0] 0) .nil).body }]

/-- The bytes of `switch`. -/
def switchBytes : List UInt8 :=
  Format.header ++
    [0x01, 0x04, 0x01, 0x60, 0x00, 0x00,
      0x03, 0x02, 0x01, 0x00,
      0x0A, 0x0D, 0x01, 0x0B, 0x01, 0x02, 0x7F, 0x41, 0x00, 0x0E, 0x02, 0x00, 0x00, 0x00, 0x0B]

namespace Format

/-- A vector says that it has as many items as a number can say, in three
    bytes. -/
theorem switch_bounded_by_input :
    decode switchBytes = .ok switch ∧ switch.entries ≤ switchBytes.length ∧
      (∀ f ∈ switch.functions, f.locals.size ≤ 50000) ∧
      (∃ k, Reader.Done (Reader.items Reader.u32) (Reader.nextItem Reader.u32) 4294967295 #[]
        ⟨[0x01, 0x02, 0x80], 0⟩ k) ∧
      ∀ k, Reader.Done (Reader.items Reader.u32) (Reader.nextItem Reader.u32) 4294967295 #[]
        ⟨[0x01, 0x02, 0x80], 0⟩ k → k ≤ 3 := by
  have hdecode : decode switchBytes = .ok switch := eq_ok_of_toOption (by decide +kernel)
  obtain ⟨hentries, hlocals⟩ := decode_bounded_by_input.1 hdecode
  exact ⟨hdecode, hentries, hlocals,
    decode_bounded_by_input.2 (.items .u32) 4294967295 #[] ⟨[0x01, 0x02, 0x80], 0⟩⟩

end Format

end Wasm
