import UnicodeInput.Proofs.Codec.Lossy
import UnicodeInput.Proofs.Document.Routes
import UnicodeInput.TextBuffer.Storage

/-! Adding to a buffer in storage. Storage grows by whole steps to the least room that suffices, so it does
not matter in how many calls the scalar values come, and a call returns if that room is not too great.
Bytes that are added go through a decoder that replaces faults. All that is known of it is the rule by
which it does, and so it gives what the strict decoder does as far as that comes. -/
namespace UnicodeInput.TextBuffer

open Codec

variable {growth room needed : Nat} {buffer : TextBuffer} {scalars : List Char} {more : Nat}

theorem size_append (buffer : TextBuffer) (scalars : List Char) :
    (buffer.append scalars).size = buffer.size + scalars.length := by
  rw [size, size, append, ← Array.length_toList, Array.toList_appendList, List.length_append,
    Array.length_toList]

/-! ## Growing by steps -/

/-- How many steps lead from one room to another that suffices. -/
def steps (growth room needed : Nat) : Nat := (needed - room + growth - 1) / growth

/-- The least room that suffices, of those that whole steps lead to. -/
def stepped (growth room needed : Nat) : Nat := room + steps growth room needed * growth

theorem grown_eq (growth room needed : Nat) :
    grown growth room needed = Word.saturate (stepped growth room needed) := by
  change min (room + min (steps growth room needed * growth) _) _ = min (room + _) _
  omega

theorem le_stepped (positive : 0 < growth) (room needed : Nat) :
    needed ≤ stepped growth room needed := by
  have whole : needed - room + growth - 1 < steps growth room needed * growth + growth :=
    Nat.lt_div_mul_add positive
  unfold stepped
  omega

theorem stepped_le {n : Nat} (positive : 0 < growth) (enough : needed ≤ room + n * growth) :
    stepped growth room needed ≤ room + n * growth := by
  have fewer : steps growth room needed < n + 1 := by
    rw [steps, Nat.div_lt_iff_lt_mul positive, Nat.succ_mul]
    omega
  exact Nat.add_le_add_left (Nat.mul_le_mul_right _ (Nat.le_of_lt_succ fewer)) _

theorem stepped_of_le (positive : 0 < growth) (enough : needed ≤ room) :
    stepped growth room needed = room := by
  have none : steps growth room needed = 0 := Nat.div_eq_of_lt (by omega)
  rw [stepped, none, Nat.zero_mul, Nat.add_zero]

theorem stepped_lt_add (positive : 0 < growth) (short : room < needed) :
    stepped growth room needed < needed + growth := by
  have whole : steps growth room needed * growth ≤ needed - room + growth - 1 :=
    Nat.div_mul_le_self ..
  unfold stepped
  omega

theorem steps_le_steps {first : Nat} (order : first ≤ needed) :
    steps growth room first ≤ steps growth room needed := Nat.div_le_div_right (by omega)

theorem stepped_le_stepped {first : Nat} (order : first ≤ needed) :
    stepped growth room first ≤ stepped growth room needed :=
  Nat.add_le_add_left (Nat.mul_le_mul_right _ (steps_le_steps order)) _

/-- Growing twice is growing once. -/
theorem stepped_stepped {first : Nat} (positive : 0 < growth) (order : first ≤ needed) :
    stepped growth (stepped growth room first) needed = stepped growth room needed := by
  have fewer : steps growth room first ≤ steps growth room needed := steps_le_steps order
  have split : stepped growth room needed = stepped growth room first +
      (steps growth room needed - steps growth room first) * growth := by
    rw [stepped, stepped, Nat.add_assoc, ← Nat.add_mul, Nat.add_sub_cancel' fewer]
  apply Nat.le_antisymm
  · rw [split]
    exact stepped_le positive (split ▸ le_stepped positive room needed)
  · have joined : stepped growth (stepped growth room first) needed =
        room + (steps growth room first + steps growth (stepped growth room first) needed) * growth := by
      rw [stepped, stepped, Nat.add_assoc, ← Nat.add_mul]
    rw [joined]
    exact stepped_le positive (joined ▸ le_stepped positive _ needed)

namespace Stored

/-! ## What a call leaves in storage -/

theorem ofRoom?_of_fits (within : buffer.size ≤ room) (fits : room < storageLimit) :
    ofRoom? room buffer = some ⟨buffer, room, within, fits⟩ := dif_pos ⟨within, fits⟩

theorem ofRoom?_of_le (great : storageLimit ≤ room) : ofRoom? room buffer = none :=
  dif_neg fun fits => Nat.not_lt_of_le great fits.2

theorem ofRoom?_saturate (room : Nat) (buffer : TextBuffer) :
    ofRoom? (Word.saturate room) buffer = ofRoom? room buffer := by
  by_cases fits : room < Word.limit
  · rw [Word.saturate_of_lt fits]
  · have most : Word.saturate room = Word.limit - 1 :=
      Nat.min_eq_right (Nat.sub_le_of_le_add (Nat.le_succ_of_le (Nat.le_of_not_lt fits)))
    rw [ofRoom?_of_le, ofRoom?_of_le]
    · exact Nat.le_trans (by decide) (Nat.le_of_not_lt fits)
    · rw [most]
      decide

variable (stored : Stored)

def roomFor (more : Nat) : Nat :=
  stepped stored.buffer.growth stored.room (stored.buffer.size + more)

theorem size_add_le_roomFor (more : Nat) : stored.buffer.size + more ≤ stored.roomFor more :=
  le_stepped stored.buffer.growth_pos ..

theorem reserve_eq (more : Nat) : stored.reserve more = ofRoom? (stored.roomFor more) stored.buffer := by
  have words : storageLimit < Word.limit - 1 := by decide
  have bound := stored.room_lt_limit
  have positive := stored.buffer.growth_pos
  rw [reserve, roomFor]
  by_cases enough : stored.buffer.size + more ≤ stored.room
  · rw [stepped_of_le positive enough, ofRoom?_of_fits stored.size_le_room bound,
      Word.saturate_of_lt (by omega), if_pos enough]
  · by_cases word : stored.buffer.size + more < Word.limit
    · rw [Word.saturate_of_lt word, if_neg enough, grown_eq, ofRoom?_saturate]
    · -- What is needed is no word, and neither that nor the greatest word is room that can be had.
      have most : Word.saturate (stored.buffer.size + more) = Word.limit - 1 :=
        Nat.min_eq_right (by omega)
      have least := le_stepped positive stored.room (Word.limit - 1)
      have needed := le_stepped positive stored.room (stored.buffer.size + more)
      rw [most, if_neg (by omega), grown_eq, ofRoom?_saturate, ofRoom?_of_le (by omega),
        ofRoom?_of_le (by omega)]

theorem put_eq (enough : scalars.length ≤ more) :
    stored.put more scalars = ofRoom? (stored.roomFor more) (stored.buffer.append scalars) := by
  have least := stored.size_add_le_roomFor more
  rw [put, reserve_eq]
  by_cases fits : stored.roomFor more < storageLimit
  · have held : (stored.buffer.append scalars).size ≤ stored.roomFor more := by
      rw [size_append]
      omega
    rw [ofRoom?_of_fits (by omega) fits, Option.bind_eq_bind, Option.bind_some, fill,
      Nat.max_eq_left held]
  · rw [ofRoom?_of_le (Nat.le_of_not_lt fits), ofRoom?_of_le (Nat.le_of_not_lt fits)]
    rfl

/-- Two additions are one, down to the room. -/
theorem append_bind_append (front back : List Char) :
    (stored.append front).bind (fun first => first.append back) = stored.append (front ++ back) := by
  have order : stored.buffer.size + front.length ≤ stored.buffer.size + (front ++ back).length := by
    rw [List.length_append]
    omega
  have twice : stepped stored.buffer.growth (stored.roomFor front.length) _ =
      stored.roomFor (front ++ back).length := stepped_stepped stored.buffer.growth_pos order
  rw [append, append, stored.put_eq (Nat.le_refl _), stored.put_eq (Nat.le_refl _), ← twice]
  by_cases fits : stored.roomFor front.length < storageLimit
  · have held : (stored.buffer.append front).size ≤ stored.roomFor front.length := by
      rw [size_append]
      exact stored.size_add_le_roomFor _
    rw [ofRoom?_of_fits held fits, Option.bind_some, append, put_eq _ (Nat.le_refl _), roomFor,
      append_append, size_append, List.length_append, Nat.add_assoc]
    rfl
  · have great := Nat.le_of_not_lt fits
    have more : stored.roomFor front.length ≤ stepped stored.buffer.growth (stored.roomFor front.length)
        (stored.buffer.size + (front ++ back).length) := Nat.le_add_right ..
    rw [ofRoom?_of_le great, ofRoom?_of_le (Nat.le_trans great more)]
    rfl

/-- To add scalar values one by one comes to the same as to add them at once. -/
theorem extend_eq_append (scalars : List Char) : stored.extend scalars = stored.append scalars := by
  induction scalars generalizing stored with
  | nil =>
    have kept : stored.roomFor 0 = stored.room :=
      stepped_of_le stored.buffer.growth_pos stored.size_le_room
    rw [append, List.length_nil, stored.put_eq (Nat.le_refl 0), kept, append_nil,
      ofRoom?_of_fits stored.size_le_room stored.room_lt_limit]
    rfl
  | cons c scalars ih =>
    calc stored.extend (c :: scalars)
        = (stored.append [c]).bind fun first => first.extend scalars := rfl
      _ = (stored.append [c]).bind fun first => first.append scalars := by simp only [ih]
      _ = stored.append (c :: scalars) := stored.append_bind_append [c] scalars

/-! ## Adding where there is room -/

/-- Whether storage can have room for `more` scalar values besides those it holds. -/
def HasRoom (more : Nat) : Prop := stored.roomFor more < storageLimit

instance (more : Nat) : Decidable (stored.HasRoom more) := inferInstanceAs (Decidable (_ < _))

theorem HasRoom.of_le {stored : Stored} {fewer : Nat} (room : stored.HasRoom more)
    (order : fewer ≤ more) : stored.HasRoom fewer :=
  Nat.lt_of_le_of_lt (stepped_le_stepped (Nat.add_le_add_left order _)) room

/-- The buffer with scalar values behind its own, where there is room for `more`. -/
def added (more : Nat) (scalars : List Char) : Option TextBuffer :=
  if stored.HasRoom more then some (stored.buffer.append scalars) else none

/-- One step of growth to spare is room enough. -/
theorem hasRoom_of_le (spare : stored.buffer.size + more + stored.buffer.growth ≤ storageLimit) :
    stored.HasRoom more := by
  have bound := stored.room_lt_limit
  have positive := stored.buffer.growth_pos
  rw [HasRoom, roomFor]
  by_cases enough : stored.buffer.size + more ≤ stored.room
  · rwa [stepped_of_le positive enough]
  · exact Nat.lt_of_lt_of_le (stepped_lt_add positive (by omega)) spare

theorem buffer_put (enough : scalars.length ≤ more) :
    Stored.buffer <$> stored.put more scalars = stored.added more scalars := by
  rw [stored.put_eq enough, added]
  split
  next fits =>
    have least := stored.size_add_le_roomFor more
    rw [ofRoom?_of_fits (by rw [size_append]; omega) fits]
    rfl
  next great =>
    rw [ofRoom?_of_le (Nat.le_of_not_lt great)]
    rfl

/-! ## Adding bytes -/

section Bytes

variable {lossy : List UInt8 → List Char} (rule : Lossy.SubstitutesMaximalSubparts lossy)
  {bytes : List UInt8}

include rule

theorem buffer_appendBytes (bytes : List UInt8) :
    Stored.buffer <$> stored.appendBytes lossy bytes = stored.added bytes.length (lossy bytes) :=
  stored.buffer_put (rule.length_le bytes)

/-- Where the decoder comes to the end, both decoders give the same. -/
theorem lossy_of_decodes {rest : MemorySource}
    (run : Decodes .utf8 (MemorySource.ofBytes bytes) scalars none rest) : lossy bytes = scalars := by
  obtain ⟨tail, content, ended⟩ := run.rest_eq rfl
  obtain rfl : tail = [] := ended
  rw [List.append_nil] at content
  change bytes = scalars.flatMap Utf8.encode at content
  rw [content, rule.flatMap]

/-- Where a fault stops the decoder, the other one replaces it and goes on behind it. -/
theorem lossy_of_fault {rest : MemorySource} {e : DecodeError}
    (run : Decodes .utf8 (MemorySource.ofBytes bytes) scalars (some e) rest) :
    ∃ k m, scalars.flatMap Utf8.encode = bytes.take k ∧ k < bytes.length ∧
      Lossy.MaximalSubpart (bytes.drop k) m ∧
      lossy bytes = scalars ++ Codespace.replacement :: lossy (bytes.drop (k + m)) := by
  obtain ⟨k, decoded, within, stuck, -⟩ := run.exists_split_of_fault
  have more : bytes.drop k ≠ [] := mt List.drop_eq_nil_iff.mp (Nat.not_le_of_lt within)
  obtain ⟨m, part⟩ := Lossy.exists_maximalSubpart more
  refine ⟨k, m, decoded, within, part, ?_⟩
  calc lossy bytes
      = lossy (scalars.flatMap Utf8.encode ++ bytes.drop k) := by
        rw [show scalars.flatMap Utf8.encode = bytes.take k from decoded, List.take_append_drop]
    _ = scalars ++ Codespace.replacement :: lossy (bytes.drop (k + m)) := by
        rw [rule.flatMap_append, rule.fault _ m stuck part, List.drop_drop]

theorem lossy_toByteArray (text : String) : lossy text.toByteArray.data.toList = text.toList := by
  have bytes := Utf8.toByteArray_ofList text.toList
  rw [String.ofList_toList] at bytes
  rw [bytes]
  exact rule.flatMap text.toList

/-- A text is added as its bytes are, down to the room. -/
theorem appendBytes_toByteArray (text : String) :
    stored.appendBytes lossy text.toByteArray.data.toList = stored.appendText text := by
  rw [appendBytes, lossy_toByteArray rule, Array.length_toList]
  rfl

end Bytes

theorem length_toList_le (text : String) : text.toList.length ≤ text.utf8ByteSize := by
  have rule := Lossy.substitutesMaximalSubparts_decode
  have fewer := rule.length_le text.toByteArray.data.toList
  rwa [lossy_toByteArray rule, Array.length_toList] at fewer

/-- Where there is room for as many scalar values as there are bytes, adding bytes adds what the strict
decoder gives for them. Where a fault stops that, what follows is one U+FFFD for the longest prefix that
begins a scalar value, or for one byte, and then what the bytes behind add to any buffer. A text is added
alike as bytes, at once and by its characters, and what the buffer had stays in front. Without the room
there is no result. -/
theorem appendBytes_follows_decoder {lossy : List UInt8 → List Char}
    (rule : Lossy.SubstitutesMaximalSubparts lossy) (stored : Stored) (bytes : List UInt8) :
    (∃ scalars fault,
      (∀ others other,
        Decoder.Yields { source := MemorySource.ofBytes bytes, encoding := .utf8 } others other ↔
          others = scalars ∧ other = fault) ∧
      match fault with
      | none => Stored.buffer <$> stored.appendBytes lossy bytes = stored.added bytes.length scalars
      | some _ => ∃ k m behind, scalars.flatMap Utf8.encode = bytes.take k ∧ k < bytes.length ∧
          Lossy.MaximalSubpart (bytes.drop k) m ∧
          (∀ other : Stored, Stored.buffer <$> other.appendBytes lossy (bytes.drop (k + m)) =
            other.added (bytes.length - (k + m)) behind) ∧
          Stored.buffer <$> stored.appendBytes lossy bytes =
            stored.added bytes.length (scalars ++ Codespace.replacement :: behind)) ∧
    (∀ text : String,
      stored.appendBytes lossy text.toByteArray.data.toList = stored.appendText text ∧
      Stored.buffer <$> stored.appendText text = stored.added text.utf8ByteSize text.toList ∧
      Stored.buffer <$> stored.append text.toList = stored.added text.length text.toList ∧
      (stored.HasRoom text.utf8ByteSize → stored.HasRoom text.length) ∧
      stored.extend text.toList = stored.append text.toList) ∧
    ∀ longer, stored.appendBytes lossy bytes = some longer →
      stored.buffer.toList <+: longer.buffer.toList := by
  have added := stored.buffer_appendBytes rule bytes
  refine ⟨?_, ?_, ?_⟩
  · have free : (MemorySource.ofBytes bytes).pending = none := rfl
    obtain ⟨scalars, fault, rest, run⟩ := Decodes.exists_of_free .utf8 free
    have yields := run.yields (run.spent free)
    refine ⟨scalars, fault, fun others other => ⟨yields.unique, ?_⟩, ?_⟩
    · rintro ⟨rfl, rfl⟩
      exact yields
    cases fault with
    | none => rwa [lossy_of_decodes rule run] at added
    | some e =>
      obtain ⟨k, m, decoded, within, part, behind⟩ := lossy_of_fault rule run
      refine ⟨k, m, lossy (bytes.drop (k + m)), decoded, within, part, fun other => ?_, ?_⟩
      · rw [other.buffer_appendBytes rule, List.length_drop]
      · rwa [behind] at added
  · intro text
    have fewer := length_toList_le text
    exact ⟨stored.appendBytes_toByteArray rule text, stored.buffer_put fewer,
      stored.buffer_put (Nat.le_refl _), fun room => room.of_le fewer, stored.extend_eq_append _⟩
  · intro longer made
    rw [made, Stored.added] at added
    split at added
    · obtain same : longer.buffer = _ := Option.some.inj added
      rw [same, toList_append]
      exact List.prefix_append ..
    · cases added

/-- Two bytes that begin a scalar value, and a letter that does not continue it, behind another letter. -/
theorem appendBytes_follows_decoder_cut_off :
    Lossy.SubstitutesMaximalSubparts Lossy.decode ∧
    ∃ k m behind, k < 3 ∧ Lossy.MaximalSubpart ([0xE2, 0x82, 0x62].drop k) m ∧
      Stored.buffer <$> Stored.appendBytes ⟨⟨#['a'], 4, by decide⟩, 1, by decide, by decide⟩ Lossy.decode
          [0xE2, 0x82, 0x62] =
        some (TextBuffer.append ⟨#['a'], 4, by decide⟩ (Codespace.replacement :: behind)) := by
  obtain ⟨⟨scalars, fault, yields, added⟩, -, -⟩ :=
    appendBytes_follows_decoder Lossy.substitutesMaximalSubparts_decode
      ⟨⟨#['a'], 4, by decide⟩, 1, by decide, by decide⟩ [0xE2, 0x82, 0x62]
  have run : Decodes .utf8 (MemorySource.ofBytes [0xE2, 0x82, 0x62]) [] _ _ := .failed rfl rfl
  obtain ⟨rfl, rfl⟩ := (yields [] _).mp (run.yields nofun)
  obtain ⟨k, m, behind, -, within, part, -, result⟩ := added
  exact ⟨Lossy.substitutesMaximalSubparts_decode, k, m, behind, within, part, result⟩

/-- A buffer of one letter that grows by the greatest word takes no other letter, though the decoder has
no fault to find. -/
theorem not_forall_appendBytes_adds_decoded :
    ¬ ∀ (lossy : List UInt8 → List Char), Lossy.SubstitutesMaximalSubparts lossy →
      ∀ (stored : Stored) (bytes : List UInt8) (scalars : List Char),
        Decoder.Yields { source := MemorySource.ofBytes bytes, encoding := .utf8 } scalars none →
          ∃ longer, stored.appendBytes lossy bytes = some longer ∧
            longer.buffer.toList = stored.buffer.toList ++ scalars := by
  intro claimed
  have run : Decodes .utf8 (MemorySource.ofBytes [0x62]) ['b'] none _ := .step rfl rfl (.finished rfl)
  obtain ⟨longer, made, -⟩ := claimed _ Lossy.substitutesMaximalSubparts_decode
    ⟨⟨#['a'], Word.limit - 1, by decide⟩, 1, by decide, by decide⟩ [0x62] ['b'] (run.yields fun _ => rfl)
  have refused : Stored.appendBytes ⟨⟨#['a'], Word.limit - 1, by decide⟩, 1, by decide, by decide⟩
      Lossy.decode [0x62] = none := rfl
  rw [refused] at made
  cases made

/-! ## Other changes -/

theorem buffer_truncate (size : Nat) :
    Stored.buffer <$> stored.truncate size = stored.buffer.truncate size := by
  unfold truncate
  split
  next made => exact made.symm
  next made => exact made.symm

/-- What is stored is the buffer that the bytes decode to, as long as there can be room for it. -/
theorem exists_ofBytes {encoding : Encoding} {bytes : List UInt8}
    (made : TextBuffer.ofBytes encoding bytes = .ok buffer)
    (spare : buffer.size + defaultGrowth ≤ storageLimit) :
    ∃ stored, ofBytes encoding bytes = .ok (some stored) ∧ stored.buffer = buffer := by
  have same : TextBuffer.empty.append buffer.toList = buffer := by
    rw [TextBuffer.ofBytes_eq] at made
    cases decoded : Codec.decode encoding bytes with
    | error e =>
      rw [decoded] at made
      cases made
    | ok scalars =>
      rw [decoded] at made
      obtain rfl := Except.ok.inj made
      rw [toList_append]
      rfl
  have room : empty.HasRoom buffer.toList.length := by
    refine empty.hasRoom_of_le ?_
    change 0 + buffer.size + defaultGrowth ≤ storageLimit
    rwa [Nat.zero_add]
  have added := empty.buffer_put (Nat.le_refl buffer.toList.length)
  rw [Stored.added, if_pos room] at added
  obtain ⟨stored, put, content⟩ := Option.map_eq_some_iff.mp added
  refine ⟨stored, ?_, content.trans same⟩
  rw [ofBytes, made]
  exact congrArg Except.ok ((empty.extend_eq_append _).trans put)

end Stored

end UnicodeInput.TextBuffer
