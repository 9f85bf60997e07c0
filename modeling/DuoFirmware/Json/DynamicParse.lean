import DuoFirmware.Json.BlockJsonBuffer
import DuoFirmware.Json.Parser
import DuoFirmware.Lib.StateProgram

/-!
# Parsing with a dynamic buffer

The parser changes its buffer by allocations only, so that what these keep is kept by parsing.
-/

namespace DuoFirmware.Json

open StateProgram

variable {β : Type} {α : Type}

/-- What the allocations of the parser keep. -/
def JsonBuffer.Keeps (B : JsonBuffer β) (I : β → Prop) : Prop :=
  ∀ n ∈ [B.sizes.array, B.sizes.arrayNode, B.sizes.object, B.sizes.objectNode],
    ∀ b b', B.alloc n b = some b' → I b → I b'

namespace Parser

/-- A program of the parser keeps what is said of the buffer. -/
def KeepsBuffer (x : ParserM β α) (I : β → Prop) : Prop := StateProgram.Keeps x fun p ↦ I p.buffer

variable {B : JsonBuffer β} {I : β → Prop} {n : ℕ}

theorem peek_keeps : KeepsBuffer (peek : ParserM β UInt8) I := by
  intro p c p' hrun hp
  obtain ⟨d, -, hd⟩ := Option.map_eq_some_iff.mp hrun
  obtain ⟨-, rfl⟩ := Prod.mk.inj hd
  exact hp

theorem skipSpaces_keeps : KeepsBuffer (skipSpaces n : ParserM β Unit) I := by
  intro p c p' hrun hp
  obtain ⟨ptr, -, hptr⟩ := Option.map_eq_some_iff.mp hrun
  obtain ⟨-, rfl⟩ := Prod.mk.inj hptr
  exact hp

theorem skip_keeps {c : UInt8} : KeepsBuffer (skip n c : ParserM β Bool) I := by
  intro p b p' hrun hp
  obtain ⟨ptr, -, hrun⟩ := Option.bind_eq_some_iff.mp hrun
  obtain ⟨d, -, hrun⟩ := Option.bind_eq_some_iff.mp hrun
  split_ifs at hrun
  · obtain ⟨-, rfl⟩ := Prod.mk.inj (Option.some.inj hrun)
    exact hp
  · obtain ⟨ptr', -, hrun⟩ := Option.bind_eq_some_iff.mp hrun
    obtain ⟨-, rfl⟩ := Prod.mk.inj (Option.some.inj hrun)
    exact hp

theorem parseString_keeps : KeepsBuffer (parseString n : ParserM β ℕ) I := by
  intro p b p' hrun hp
  obtain ⟨c, -, hrun⟩ := Option.bind_eq_some_iff.mp hrun
  have hstore {mem : List UInt8} {r w : ℕ} (h : (store mem w 0).bind (fun mem ↦
      some (p.writePtr, (⟨mem, r, w + 1, p.buffer⟩ : Parser β))) = some (b, p')) : I p'.buffer := by
    obtain ⟨mem', -, h⟩ := Option.bind_eq_some_iff.mp h
    obtain ⟨-, rfl⟩ := Prod.mk.inj (Option.some.inj h)
    exact hp
  split_ifs at hrun
  · obtain ⟨_, -, hrun⟩ := Option.bind_eq_some_iff.mp hrun
    exact hstore hrun
  · obtain ⟨_, -, hrun⟩ := Option.bind_eq_some_iff.mp hrun
    exact hstore hrun

theorem parseStringTo_keeps : KeepsBuffer (parseStringTo n : ParserM β (JsonVariant ℕ)) I :=
  peek_keeps.bind fun _ ↦ parseString_keeps.bind fun _ ↦ .pure

/-- **Allocating** is what may change the buffer. -/
theorem alloc_keeps {bytes : ℕ} (h : ∀ b b', B.alloc bytes b = some b' → I b → I b') :
    KeepsBuffer (alloc B bytes) I := by
  intro p b p' hrun hp
  rw [alloc] at hrun
  cases halloc : B.alloc bytes p.buffer with
  | none =>
    rw [halloc] at hrun
    obtain ⟨-, rfl⟩ := Prod.mk.inj (Option.some.inj hrun)
    exact hp
  | some b' =>
    rw [halloc] at hrun
    obtain ⟨-, rfl⟩ := Prod.mk.inj (Option.some.inj hrun)
    exact h _ _ halloc hp

theorem addNewNode_keeps {valid : Bool} {bytes : ℕ}
    (h : ∀ b b', B.alloc bytes b = some b' → I b → I b') :
    KeepsBuffer (addNewNode B valid bytes) I :=
  .ite (alloc_keeps h) .pure

theorem parseEnclosed_keeps {bytes : ℕ} {opening closing : UInt8}
    {loop : Bool → ParserM β (Option (List α))}
    (h : ∀ b b', B.alloc bytes b = some b' → I b → I b')
    (hloop : ∀ valid, KeepsBuffer (loop valid) I) :
    KeepsBuffer (parseEnclosed B n bytes opening closing loop) I :=
  (alloc_keeps h).bind fun valid ↦ skip_keeps.bind fun _ ↦
    .ite .pure (skip_keeps.bind fun _ ↦ .ite .pure (hloop valid))

theorem parseMore_keeps {closing : UInt8} {nodes : α} {next : ParserM β (Option α)}
    (h : KeepsBuffer next I) : KeepsBuffer (parseMore n closing nodes next) I :=
  skip_keeps.bind fun _ ↦ .ite .pure (skip_keeps.bind fun _ ↦ .ite h .pure)

variable {parseAnything : ParserM β (Option (JsonVariant ℕ))}

theorem arrayLoop_keeps (hB : B.Keeps I) (h : KeepsBuffer parseAnything I) (valid : Bool) (m : ℕ)
    (nodes : List (JsonVariant ℕ)) :
    KeepsBuffer (arrayLoop B n parseAnything valid m nodes) I := by
  induction m generalizing nodes with
  | zero => exact .fail
  | succ m ih =>
    refine h.bind fun value ↦ ?_
    cases value with
    | none => exact .pure
    | some value =>
      refine (addNewNode_keeps (hB _ (by simp))).bind fun _ ↦ .ite .pure ?_
      exact parseMore_keeps (ih _)

theorem parseArray_keeps (hB : B.Keeps I) (h : KeepsBuffer parseAnything I) :
    KeepsBuffer (parseArray B n parseAnything) I :=
  parseEnclosed_keeps (hB _ (by simp)) fun valid ↦ arrayLoop_keeps hB h valid n []

theorem set_keeps (hB : B.Keeps I) (valid : Bool) (nodes : List (ℕ × JsonVariant ℕ)) (key : ℕ)
    (value : JsonVariant ℕ) : KeepsBuffer (set B valid nodes key value) I := by
  have hget : KeepsBuffer (get : ParserM β (Parser β)) I := by
    intro p q p' hrun hp
    obtain ⟨-, rfl⟩ := Prod.mk.inj (Option.some.inj hrun)
    exact hp
  refine hget.bind fun p ↦ ?_
  cases getNodeAt p.mem nodes key with
  | some i => exact .pure
  | none => exact (addNewNode_keeps (hB _ (by simp))).bind fun _ ↦ .ite .pure .pure

theorem objectLoop_keeps (hB : B.Keeps I) (h : KeepsBuffer parseAnything I) (valid : Bool) (m : ℕ)
    (nodes : List (ℕ × JsonVariant ℕ)) :
    KeepsBuffer (objectLoop B n parseAnything valid m nodes) I := by
  induction m generalizing nodes with
  | zero => exact .fail
  | succ m ih =>
    refine parseString_keeps.bind fun key ↦ skip_keeps.bind fun _ ↦ .ite .pure ?_
    refine h.bind fun value ↦ ?_
    cases value with
    | none => exact .pure
    | some value =>
      refine (set_keeps hB valid nodes key value).bind fun nodes' ↦ ?_
      cases nodes' with
      | none => exact .pure
      | some nodes' => exact parseMore_keeps (ih nodes')

theorem parseObject_keeps (hB : B.Keeps I) (h : KeepsBuffer parseAnything I) :
    KeepsBuffer (parseObject B n parseAnything) I :=
  parseEnclosed_keeps (hB _ (by simp)) fun valid ↦ objectLoop_keeps hB h valid n []

theorem parseAnything_keeps (hB : B.Keeps I) (nestingLimit : ℕ) :
    KeepsBuffer (Parser.parseAnything B n nestingLimit) I := by
  induction nestingLimit with
  | zero => exact .pure
  | succ nestingLimit ih =>
    refine skipSpaces_keeps.bind fun _ ↦ peek_keeps.bind fun _ ↦ .ite ?_ (.ite ?_ ?_)
    · exact (parseArray_keeps hB ih).bind fun _ ↦ .pure
    · exact (parseObject_keeps hB ih).bind fun _ ↦ .pure
    · exact parseStringTo_keeps.bind fun _ ↦ .pure

end Parser

/-- `DynamicJsonBuffer`, with what it handed out; `malloc` may answer in another way each time. -/
def dynamicJsonBuffer (malloc : ℕ → ℕ → Bool) (sizes : Sizes) :
    JsonBuffer (BlockJsonBuffer × List (Place × ℕ)) where
  alloc bytes b :=
    match b.1.alloc (malloc b.2.length) bytes with
    | (some p, b') => some (b', b.2 ++ [(p, bytes)])
    | (none, _) => none
  sizes := sizes

/-- The objects are not larger than half of the address space. -/
def Sizes.Moderate (sizes : Sizes) : Prop :=
  ∀ n ∈ [sizes.array, sizes.arrayNode, sizes.object, sizes.objectNode], n ≤ 2 ^ 31

variable {malloc : ℕ → ℕ → Bool} {sizes : Sizes}

theorem dynamicJsonBuffer_keeps (hsizes : sizes.Moderate)
    (hmalloc : ∀ time n, malloc time n = true → n < 2 ^ 31) :
    (dynamicJsonBuffer malloc sizes).Keeps fun b ↦ b.1.Sound b.2 := by
  intro n hn b b' halloc hb
  obtain ⟨p, b₁, hrun, hb₁⟩ := hb.alloc (hmalloc b.2.length) (hsizes n hn)
  simp only [dynamicJsonBuffer, hrun] at halloc
  cases p with
  | none => exact absurd halloc.symm (Option.some_ne_none _)
  | some p =>
    obtain rfl := Option.some.inj halloc
    exact hb₁

/-- **Parsing with a dynamic buffer** leaves all that was handed out inside of the blocks and
apart, also what an earlier text got. -/
theorem parse_keeps_areas_apart (hsizes : sizes.Moderate)
    (hmalloc : ∀ time n, malloc time n = true → n < 2 ^ 31)
    {b : BlockJsonBuffer × List (Place × ℕ)} (hb : b.1.Sound b.2) (mem : List UInt8)
    (nestingLimit : ℕ) :
    (∀ nodes p, parseArray (dynamicJsonBuffer malloc sizes) b mem nestingLimit = some (nodes, p) →
        p.buffer.1.Sound p.buffer.2) ∧
      ∀ nodes p, parseObject (dynamicJsonBuffer malloc sizes) b mem nestingLimit = some (nodes, p) →
        p.buffer.1.Sound p.buffer.2 := by
  have hB := dynamicJsonBuffer_keeps hsizes hmalloc
  have hx := Parser.parseAnything_keeps (n := mem.length + 1) hB nestingLimit
  constructor
  · intro nodes p hrun
    exact Parser.parseArray_keeps hB hx _ _ _ hrun hb
  · intro nodes p hrun
    exact Parser.parseObject_keeps hB hx _ _ _ hrun hb

/-- What `[1]` leaves: an array and a node were allocated. -/
def oneNumber : Parser (BlockJsonBuffer × List (Place × ℕ)) where
  mem := [0x31, 0, rbracket, 0]
  readPtr := 3
  writePtr := 2
  buffer := (⟨[⟨268, 256, 20⟩], 512⟩, [(⟨0, 0⟩, 8), (⟨0, 8⟩, 12)])

theorem parse_keeps_areas_apart_one :
    parseArray (dynamicJsonBuffer (fun _ n ↦ n ≤ 1000) ⟨8, 12, 8, 16⟩) (.new 256, [])
        [lbracket, 0x31, rbracket, 0] 10 = some (some [.unparsed 0], oneNumber) ∧
      oneNumber.buffer.1.Sound oneNumber.buffer.2 := by
  have hsizes : Sizes.Moderate ⟨8, 12, 8, 16⟩ := by
    intro n hn
    simp only [List.mem_cons, List.not_mem_nil, or_false] at hn
    omega
  have hmalloc (time n : ℕ) (h : (fun _ n ↦ decide (n ≤ 1000) : ℕ → ℕ → Bool) time n = true) :
      n < 2 ^ 31 := (of_decide_eq_true h).trans_lt (by decide)
  have hnew : (BlockJsonBuffer.new 256).Sound [] :=
    BlockJsonBuffer.sound_new (by decide) (by decide)
  have hrun : parseArray (dynamicJsonBuffer (fun _ n ↦ n ≤ 1000) ⟨8, 12, 8, 16⟩) (.new 256, [])
      [lbracket, 0x31, rbracket, 0] 10 = some (some [.unparsed 0], oneNumber) := rfl
  exact ⟨hrun, (parse_keeps_areas_apart hsizes hmalloc hnew _ 10).1 _ _ hrun⟩

end DuoFirmware.Json
