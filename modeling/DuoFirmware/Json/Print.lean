import DuoFirmware.Json.Written

/-!
# Printing to buffers

The sinks that `JsonWriter` writes to, and the two that change what they pass on: they are functions
from what is written to what goes to the next sink. Operands are evaluated from left to right.
-/

namespace DuoFirmware.Json

variable {σ : Type} {text : List UInt8}

/-- A sink: `write` gives the number of characters that were written. -/
structure Print (σ : Type) where
  write : UInt8 → σ → Option (ℕ × σ)

namespace Print

/-- `print` of a string. -/
def print (P : Print σ) : List UInt8 → σ → Option (ℕ × σ)
  | [], s => some (0, s)
  | c :: text, s => do
    let (n, s) ← P.write c s
    let (k, s) ← print P text s
    some (n + k, s)

end Print

/-- `DummyPrint`. -/
def dummyPrint : Print Unit := ⟨fun _ s ↦ some (1, s)⟩

structure StaticStringBuilder where
  buffer : List UInt8
  capacity : ℕ
  length : ℕ

def staticStringBuilder : Print StaticStringBuilder where
  write c s :=
    if s.length ≥ s.capacity then some (0, s)
    else do
      let buffer ← store s.buffer s.length c
      let length := s.length + 1
      let buffer ← store buffer length 0
      some (1, { s with buffer := buffer, length := length })

/-- The constructor; `size - 1` has 32 bits. -/
def StaticStringBuilder.new (buf : List UInt8) (size : ℕ) : Option StaticStringBuilder := do
  let buffer ← store buf 0 0
  some ⟨buffer, (size + (2 ^ 32 - 1)) % 2 ^ 32, 0⟩

/-! ## Pretty printing -/

structure IndentedPrint where
  level : ℕ
  tabSize : ℕ
  isNewLine : Bool

namespace IndentedPrint

def new : IndentedPrint := ⟨0, 2, true⟩

def indent (p : IndentedPrint) : IndentedPrint :=
  if p.level < 15 then { p with level := p.level + 1 } else p

def unindent (p : IndentedPrint) : IndentedPrint :=
  if p.level > 0 then { p with level := p.level - 1 } else p

def writeTabs (p : IndentedPrint) : List UInt8 := List.replicate (p.level * p.tabSize) space

def write (c : UInt8) (p : IndentedPrint) : List UInt8 × IndentedPrint :=
  ((if p.isNewLine then writeTabs p else []) ++ [c], { p with isNewLine := c = lf })

def println (p : IndentedPrint) : List UInt8 × IndentedPrint :=
  let (a, p) := p.write cr
  let (b, p) := p.write lf
  (a ++ b, p)

end IndentedPrint

structure Prettyfier where
  previousChar : UInt8
  inString : Bool
  sink : IndentedPrint

namespace Prettyfier

def new : Prettyfier := ⟨0, false, .new⟩

def inEmptyBlock (p : Prettyfier) : Bool := p.previousChar = lbrace ∨ p.previousChar = lbracket

/-- A call of the sink. -/
def call (f : IndentedPrint → List UInt8 × IndentedPrint) (p : Prettyfier) :
    List UInt8 × Prettyfier :=
  ((f p.sink).1, { p with sink := (f p.sink).2 })

/-- One call after the other. -/
def andThen (f g : Prettyfier → List UInt8 × Prettyfier) (p : Prettyfier) :
    List UInt8 × Prettyfier :=
  ((f p).1 ++ (g (f p).2).1, (g (f p).2).2)

def indentIfNeeded (p : Prettyfier) : List UInt8 × Prettyfier :=
  if !p.inEmptyBlock then ([], p) else call (fun s ↦ s.indent.println) p

def unindentIfNeeded (p : Prettyfier) : List UInt8 × Prettyfier :=
  if p.inEmptyBlock then ([], p) else call (fun s ↦ s.unindent.println) p

def handleStringChar (c : UInt8) (p : Prettyfier) : List UInt8 × Prettyfier :=
  let isQuote := c = quote ∧ p.previousChar ≠ backslash
  call (IndentedPrint.write c) (if isQuote then { p with inString := false } else p)

def handleBlockOpen (c : UInt8) : Prettyfier → List UInt8 × Prettyfier :=
  andThen indentIfNeeded (call (IndentedPrint.write c))

def handleBlockClose (c : UInt8) : Prettyfier → List UInt8 × Prettyfier :=
  andThen unindentIfNeeded (call (IndentedPrint.write c))

def handleColon : Prettyfier → List UInt8 × Prettyfier :=
  andThen (call (IndentedPrint.write colon)) (call (IndentedPrint.write space))

def handleComma : Prettyfier → List UInt8 × Prettyfier :=
  andThen (call (IndentedPrint.write comma)) (call IndentedPrint.println)

def handleQuoteOpen (p : Prettyfier) : List UInt8 × Prettyfier :=
  andThen indentIfNeeded (call (IndentedPrint.write quote)) { p with inString := true }

def handleNormalChar (c : UInt8) : Prettyfier → List UInt8 × Prettyfier :=
  andThen indentIfNeeded (call (IndentedPrint.write c))

def handleMarkupChar (c : UInt8) : Prettyfier → List UInt8 × Prettyfier :=
  if c = lbrace ∨ c = lbracket then handleBlockOpen c
  else if c = rbrace ∨ c = rbracket then handleBlockClose c
  else if c = colon then handleColon
  else if c = comma then handleComma
  else if c = quote then handleQuoteOpen
  else handleNormalChar c

def write (c : UInt8) (p : Prettyfier) : List UInt8 × Prettyfier :=
  let (out, p) := if p.inString then handleStringChar c p else handleMarkupChar c p
  (out, { p with previousChar := c })

def print : List UInt8 → Prettyfier → List UInt8 × Prettyfier
  | [], p => ([], p)
  | c :: text, p => andThen (write c) (print text) p

end Prettyfier

/-- What the sink gets for a text. -/
def pretty (text : List UInt8) : List UInt8 := (Prettyfier.print text .new).1

/-! ## Printing a value -/

namespace JsonVariant

variable {S : Type} (chars : S → List UInt8) (v : JsonVariant S)

def printTo (P : Print σ) (s : σ) : Option (ℕ × σ) := P.print (v.writeTo chars) s

def prettyPrintTo (P : Print σ) (s : σ) : Option (ℕ × σ) := P.print (pretty (v.writeTo chars)) s

/-- `printTo` of a buffer; the buffer after. -/
def printToBuffer (buffer : List UInt8) (bufferSize : ℕ) : Option (ℕ × List UInt8) := do
  let sb ← StaticStringBuilder.new buffer bufferSize
  (v.printTo chars staticStringBuilder sb).map (.map id StaticStringBuilder.buffer)

def prettyPrintToBuffer (buffer : List UInt8) (bufferSize : ℕ) : Option (ℕ × List UInt8) := do
  let sb ← StaticStringBuilder.new buffer bufferSize
  (v.prettyPrintTo chars staticStringBuilder sb).map (.map id StaticStringBuilder.buffer)

def measureLength : Option ℕ := (v.printTo chars dummyPrint ()).map Prod.fst

def measurePrettyLength : Option ℕ := (v.prettyPrintTo chars dummyPrint ()).map Prod.fst

end JsonVariant

/-! ## What a buffer gets -/

/-- What a buffer has after printing: as much of the text as the capacity allows and a zero behind
it. The capacity is what the constructor makes of the size, and must end inside the buffer. -/
def printed (text buffer : List UInt8) (size : ℕ) : Option (ℕ × List UInt8) :=
  let k := min text.length ((size + (2 ^ 32 - 1)) % 2 ^ 32)
  if k < buffer.length then some (k, text.take k ++ 0 :: buffer.drop (k + 1)) else none

theorem dummyPrint_print (text : List UInt8) :
    dummyPrint.print text () = some (text.length, ()) := by
  induction text with
  | nil => rfl
  | cons c text ih =>
    have hstep : dummyPrint.print (c :: text) () =
        (dummyPrint.print text ()).bind fun r ↦ some (1 + r.1, r.2) := rfl
    rw [hstep, ih, List.length_cons, Nat.add_comm]
    rfl

namespace StaticStringBuilder

variable {front back : List UInt8} {c d : UInt8} {capacity k : ℕ}

theorem write_full (h : capacity ≤ front.length) :
    staticStringBuilder.write c ⟨front ++ 0 :: back, capacity, front.length⟩ =
      some (0, ⟨front ++ 0 :: back, capacity, front.length⟩) :=
  if_pos h

/-- A character is put in the place of the zero, and the zero behind it. -/
theorem write_room (h : front.length < capacity) :
    staticStringBuilder.write c ⟨front ++ 0 :: back, capacity, front.length⟩ =
      (store (front ++ c :: back) (front.length + 1) 0).map fun buffer ↦
        (1, ⟨buffer, capacity, front.length + 1⟩) := by
  have hstore : store (front ++ 0 :: back) front.length c = some (front ++ c :: back) := by
    rw [store, if_pos (by simp)]
    simp
  rw [staticStringBuilder]
  dsimp only
  rw [if_neg (by omega), hstore, Option.map_eq_bind]
  rfl

/-- Printing goes on behind what was printed, until the capacity is reached. -/
theorem print_eq (text : List UInt8) (h : front.length ≤ capacity)
    (hk : k = min text.length (capacity - front.length)) :
    staticStringBuilder.print text ⟨front ++ 0 :: back, capacity, front.length⟩ =
      if k ≤ back.length then
        some (k, ⟨front ++ text.take k ++ 0 :: back.drop k, capacity, front.length + k⟩)
      else none := by
  induction text generalizing front back k with
  | nil =>
    obtain rfl : k = 0 := by simpa using hk
    rw [if_pos (Nat.zero_le _), List.take_zero, List.append_nil]
    rfl
  | cons c text ih =>
    rw [List.length_cons] at hk
    rw [Print.print]
    rcases Nat.lt_or_ge front.length capacity with hroom | hfull
    · rw [write_room hroom]
      obtain ⟨k, rfl⟩ : ∃ k', k = k' + 1 := Nat.exists_eq_succ_of_ne_zero (by omega)
      cases back with
      | nil =>
        rw [store, if_neg (by simp), if_neg (by simp)]
        rfl
      | cons d back =>
        have hstore : store (front ++ c :: d :: back) (front.length + 1) 0 =
            some ((front ++ [c]) ++ 0 :: back) := by
          rw [store, if_pos (by simp)]
          simp
        have hlen : front.length + 1 = (front ++ [c]).length := by simp
        rw [hstore, Option.map_some, hlen]
        dsimp only [Option.bind_eq_bind, Option.bind_some]
        rw [@ih (front ++ [c]) back k (by rw [← hlen]; exact hroom) (by rw [← hlen]; omega)]
        by_cases hback : k ≤ back.length
        · rw [if_pos hback, List.length_cons, if_pos (Nat.succ_le_succ hback), Option.bind_some,
            ← hlen]
          simp [Nat.add_comm, Nat.add_left_comm]
        · rw [if_neg hback, List.length_cons, if_neg (fun h ↦ hback (Nat.le_of_succ_le_succ h))]
          rfl
    · obtain rfl : k = 0 := by omega
      rw [write_full hfull]
      dsimp only [Option.bind_eq_bind, Option.bind_some]
      rw [ih (k := 0) h (by omega), if_pos (Nat.zero_le _), if_pos (Nat.zero_le _)]
      rfl

/-- What the buffer has when it was printed to from its beginning. -/
theorem print_new (text buffer : List UInt8) (size : ℕ) :
    ((new buffer size).bind fun sb ↦
        (staticStringBuilder.print text sb).map (.map id StaticStringBuilder.buffer)) =
      printed text buffer size := by
  cases buffer with
  | nil => rfl
  | cons d buffer =>
    have hnew : new (d :: buffer) size =
        some ⟨[] ++ 0 :: buffer, (size + (2 ^ 32 - 1)) % 2 ^ 32, ([] : List UInt8).length⟩ := rfl
    rw [hnew, Option.bind_some, print_eq text (Nat.zero_le _) rfl, printed, List.length_nil,
      Nat.sub_zero, List.length_cons]
    by_cases hk : min text.length ((size + (2 ^ 32 - 1)) % 2 ^ 32) ≤ buffer.length
    · rw [if_pos hk, if_pos (Nat.lt_succ_of_le hk)]
      rfl
    · rw [if_neg hk, if_neg (fun h ↦ hk (Nat.le_of_lt_succ h))]
      rfl

end StaticStringBuilder

/-- **Printing to a buffer stops in time**: whatever the value, the buffer and the size, the buffer
gets the text as far as `size - 1` characters, a zero behind it and no other change, and the result
says how many characters. With a size of 0 there is no such limit. The two measures are the lengths
of the whole texts. -/
theorem printed_to_buffer {S : Type} (chars : S → List UInt8) (v : JsonVariant S)
    (buffer : List UInt8) (size : ℕ) :
    v.printToBuffer chars buffer size = printed (v.writeTo chars) buffer size ∧
      v.prettyPrintToBuffer chars buffer size =
        printed (pretty (v.writeTo chars)) buffer size ∧
      v.measureLength chars = some (v.writeTo chars).length ∧
      v.measurePrettyLength chars = some (pretty (v.writeTo chars)).length := by
  refine ⟨StaticStringBuilder.print_new _ buffer size, StaticStringBuilder.print_new _ buffer size,
    ?_, ?_⟩
  · rw [JsonVariant.measureLength, JsonVariant.printTo, dummyPrint_print]
    rfl
  · rw [JsonVariant.measurePrettyLength, JsonVariant.prettyPrintTo, dummyPrint_print]
    rfl

end DuoFirmware.Json
