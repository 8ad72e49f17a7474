import QueryPad.Bson.Extended
import QueryPad.Proofs.Checked.Lines
import QueryPad.Proofs.Json.Rereading
import QueryPad.Proofs.Text.Lines

-- The strings and keys of a value, thinned and read back. Reading shows no
-- others when it finds fault with one.
namespace QueryPad

open Text

namespace Json

theorem texts_thinned (json : Json) : json.thinned.texts = json.texts.map thinText := by
  induction json using induct with
  | array items ih =>
    rw [thinned, texts, texts]
    induction items with
    | nil => rfl
    | cons item items more =>
      obtain ⟨hitem, hitems⟩ := List.forall_mem_cons.mp ih
      rw [thinnedItems, textsOfItems, textsOfItems, hitem, more hitems, List.map_append]
  | object fields ih =>
    rw [thinned, texts, texts]
    induction fields with
    | nil => rfl
    | cons field fields more =>
      obtain ⟨hfield, hfields⟩ := List.forall_mem_cons.mp ih
      rw [thinnedFields, textsOfFields, textsOfFields, hfield, more hfields, List.map_cons,
        List.map_append]
  | _ => rfl

theorem mem_texts_of_reread? {json read : Json} {room : Nat} (h : json.reread? room = some read) :
    ∀ text ∈ read.texts, text ∈ json.texts := by
  induction json using induct generalizing room read with
  | null =>
    cases h
    exact fun _ => id
  | bool =>
    cases h
    exact fun _ => id
  | number =>
    obtain ⟨value, _, rfl⟩ := Option.map_eq_some_iff.mp h
    exact fun _ => id
  | string =>
    cases h
    exact fun _ => id
  | array items ih =>
    cases room with
    | zero => contradiction
    | succ room =>
      obtain ⟨values, hvalues, rfl⟩ := Option.map_eq_some_iff.mp h
      intro text htext
      obtain ⟨value, hvalue, htext⟩ := mem_textsOfItems.mp htext
      obtain ⟨item, hitem, hread⟩ :=
        forall₂_exists_left (rereadItems?_eq_some_iff.mp hvalues) hvalue
      exact mem_textsOfItems.mpr ⟨item, hitem, ih item hitem hread text htext⟩
  | object fields ih =>
    cases room with
    | zero => contradiction
    | succ room =>
      obtain ⟨values, hvalues, rfl⟩ := Option.map_eq_some_iff.mp h
      intro text htext
      obtain ⟨value, hvalue, htext⟩ := mem_textsOfFields.mp htext
      obtain ⟨field, hfield, hkey, hread⟩ :=
        forall₂_exists_left (rereadFields?_eq_some_iff.mp hvalues) (mem_of_mem_mergeFields hvalue)
      exact mem_textsOfFields.mpr
        ⟨field, hfield, htext.imp (·.trans hkey.symm) (ih field hfield hread text)⟩

def IsOneLine (json : Json) : Prop := ∀ text ∈ json.texts, Text.IsOneLine text

theorem mem_of_mem_thin {c : Char} {cs : List Char} (h : c ∈ Regex.thin cs) : c ∈ cs := by
  fun_induction Regex.thin cs with
  | case1 d rest _ ih => grind
  | case2 d rest _ ih => grind
  | case3 d rest _ ih => grind
  | case4 => exact h

theorem isOneLine_thinText {text : String} (h : Text.IsOneLine text) :
    Text.IsOneLine (thinText text) := by
  rw [thinText, isOneLine_ofList]
  exact fun hmem => h (mem_of_mem_thin hmem)

section Kept

variable {json : Json} (h : json.IsOneLine)

include h

theorem IsOneLine.thinned : json.thinned.IsOneLine := by
  rw [IsOneLine, texts_thinned]
  exact List.forall_mem_map.mpr fun text htext => isOneLine_thinText (h text htext)

theorem IsOneLine.reread? {read : Json} {room : Nat} (hread : json.reread? room = some read) :
    read.IsOneLine := fun text htext => h text (mem_texts_of_reread? hread text htext)

end Kept

end Json

theorem JsonFault.isOneLine_message (fault : JsonFault) : IsOneLine fault.message := by
  unfold message
  cases fault with
  | malformed => decide
  | tooDeep line column => simp +decide

namespace ObjectId

variable {text : String} {fault : ObjectIdFault}

theorem readBytes_fault {bytes : List UInt8} {index total : Nat}
    (h : readBytes text index total bytes = .error fault) :
    ∃ byte ∈ bytes, ∃ index, fault = .character byte index text := by
  induction bytes generalizing index total with
  | nil => contradiction
  | cons byte bytes ih =>
    rw [readBytes] at h
    split at h
    · obtain ⟨byte, hbyte, hfault⟩ := ih h
      exact ⟨byte, List.mem_cons_of_mem _ hbyte, hfault⟩
    · cases h
      exact ⟨byte, List.mem_cons_self, index, rfl⟩

theorem mem_data_of_mem_toList {bytes : ByteArray} {byte : UInt8} (h : byte ∈ bytes.toList) :
    byte ∈ bytes.data := by
  have hloop : ∀ index found, byte ∈ ByteArray.toList.loop bytes index found →
      byte ∈ found ∨ byte ∈ bytes.data := by
    intro index found hbyte
    fun_induction ByteArray.toList.loop bytes index found with
    | case1 index found hlt ih =>
      have hget : bytes.get! index = bytes.data[index] := getElem!_pos bytes.data index hlt
      rcases ih hbyte with hfound | hdata
      · rcases List.mem_cons.mp hfound with rfl | hfound
        · exact .inr (hget ▸ Array.getElem_mem hlt)
        · exact .inl hfound
      · exact .inr hdata
    | case2 index found _ => exact .inl (List.mem_reverse.mp hbyte)
  exact (hloop 0 [] h).resolve_left List.not_mem_nil

-- A byte that is a line break by itself is one in the text.
theorem ofNat_ne_of_mem_toUTF8 (htext : IsOneLine text) {byte : UInt8}
    (hbyte : byte ∈ text.toUTF8.toList) : Char.ofNat byte.toNat ≠ '\n' := by
  have hdata := mem_data_of_mem_toList hbyte
  rw [String.toUTF8_eq_toByteArray, ← String.utf8Encode_toList, List.utf8Encode,
    List.data_toByteArray, List.mem_toArray] at hdata
  obtain ⟨c, hc, hbyte⟩ := List.mem_flatMap.mp hdata
  intro hbreak
  have hvalid : byte.toNat.isValidChar := .inl (by have := byte.toNat_lt; omega)
  have hten : byte.toNat = 10 := by
    have htoNat := congrArg Char.toNat hbreak
    rw [Char.ofNat, dif_pos hvalid] at htoNat
    exact htoNat
  have hsame : c = '\n' :=
    Char.toNat_inj.mp ((eq_of_mem_utf8EncodeChar (by omega) hbyte).trans hten)
  exact htext (hsame ▸ hc)

theorem isOneLine_of_ofText (htext : IsOneLine text) (h : ofText text = .error fault) :
    IsOneLine fault.message := by
  have hlength : IsOneLine (ObjectIdFault.length text).message := by
    unfold ObjectIdFault.message
    simp +decide [htext]
  unfold ofText at h
  simp only [bind, Except.bind] at h
  split at h
  · cases h
    exact hlength
  · split at h
    · next hbytes =>
      cases h
      obtain ⟨byte, hbyte, index, rfl⟩ := readBytes_fault hbytes
      have hc := ofNat_ne_of_mem_toUTF8 htext hbyte
      unfold ObjectIdFault.message
      simp +decide [htext, hc]
    · split at h
      · contradiction
      · cases h
        exact hlength

end ObjectId

namespace Bson

variable {json : Json} {error : ValueError}

theorem exists_of_itemsOfJson {items : List Json} (h : itemsOfJson items = .error error) :
    ∃ item ∈ items, ofJson item = .error error := by
  induction items with
  | nil => contradiction
  | cons item items ih =>
    simp only [itemsOfJson, bind, Except.bind] at h
    split at h
    · next hitem =>
      cases h
      exact ⟨item, List.mem_cons_self, hitem⟩
    · split at h
      · next hitems =>
        cases h
        obtain ⟨other, hother, hread⟩ := ih hitems
        exact ⟨other, List.mem_cons_of_mem _ hother, hread⟩
      · contradiction

theorem exists_of_fieldsOfJson {fields : List (String × Json)}
    (h : fieldsOfJson fields = .error error) : ∃ field ∈ fields, ofJson field.2 = .error error := by
  induction fields with
  | nil => contradiction
  | cons field fields ih =>
    simp only [fieldsOfJson, bind, Except.bind] at h
    split at h
    · next hfield =>
      cases h
      exact ⟨field, List.mem_cons_self, hfield⟩
    · split at h
      · next hfields =>
        cases h
        obtain ⟨other, hother, hread⟩ := ih hfields
        exact ⟨other, List.mem_cons_of_mem _ hother, hread⟩
      · contradiction

theorem isOneLine_of_readRegex {pattern options : String} (hoptions : IsOneLine options)
    (h : readRegex pattern options = .error error) : IsOneLine error.message := by
  unfold readRegex at h
  split at h
  · next c hfound =>
    cases h
    have hc : c ≠ '\n' := by
      rintro rfl
      exact hoptions (List.mem_of_find?_eq_some hfound)
    unfold ValueError.message
    simp +decide [hc]
  · contradiction

theorem isOneLine_of_readWrapped? {fields : List (String × Json)}
    (hfields : (Json.object fields).IsOneLine) (h : readWrapped? fields = some (.error error)) :
    IsOneLine error.message := by
  have htext {key text : String} (hmem : (key, .string text) ∈ fields) : IsOneLine text :=
    hfields text (Json.mem_textsOfFields.mpr ⟨_, hmem, .inr List.mem_cons_self⟩)
  unfold readWrapped? at h
  split at h
  · next hex =>
    have hread := Option.some.inj h
    unfold readId at hread
    split at hread
    · contradiction
    · next fault hfault =>
      cases hread
      exact ObjectId.isOneLine_of_ofText (htext List.mem_cons_self) hfault
  · next moment =>
    have hread := Option.some.inj h
    unfold readDate at hread
    split at hread
    · contradiction
    · cases hread
      exact show IsOneLine "Invalid Date" by decide
  · exact isOneLine_of_readRegex (by decide) (Option.some.inj h)
  · exact isOneLine_of_readRegex (htext (.tail _ (.head _))) (Option.some.inj h)
  · exact isOneLine_of_readRegex (htext (.head _)) (Option.some.inj h)
  · contradiction

theorem isOneLine_of_ofJson (hjson : json.IsOneLine) (h : ofJson json = .error error) :
    IsOneLine error.message := by
  induction json using Json.induct with
  | array items ih =>
    rw [ofJson] at h
    cases hitems : itemsOfJson items with
    | ok => simp [hitems, Except.map] at h
    | error fault =>
      rw [hitems] at h
      cases h
      obtain ⟨item, hitem, hread⟩ := exists_of_itemsOfJson hitems
      exact ih item hitem (fun text htext =>
        hjson text (Json.mem_textsOfItems.mpr ⟨item, hitem, htext⟩)) hread
  | object fields ih =>
    rw [ofJson] at h
    split at h
    · next hwrapped => exact isOneLine_of_readWrapped? hjson (hwrapped.trans (congrArg some h))
    · cases hfields : fieldsOfJson fields with
      | ok => simp [hfields, Except.map] at h
      | error fault =>
        rw [hfields] at h
        cases h
        obtain ⟨field, hfield, hread⟩ := exists_of_fieldsOfJson hfields
        exact ih field hfield (fun text htext =>
          hjson text (Json.mem_textsOfFields.mpr ⟨field, hfield, .inr htext⟩)) hread
  | _ => contradiction

-- What is wrong with the text of a value shows strings of the value only.
theorem isOneLine_of_ofExtendedText (hjson : json.IsOneLine)
    (h : ofExtendedText (.ofList (Regex.halveEscapes json.render.toList)) = .error error) :
    IsOneLine error.message := by
  rw [Json.halveEscapes_render, String.ofList_toList, ofExtendedText] at h
  have hread := Json.ofText_render json.thinned
  split at h
  · next read hok =>
    rw [hok] at hread
    exact isOneLine_of_ofJson (hjson.thinned.reread? hread.symm) h
  · next fault _ =>
    cases h
    exact fault.isOneLine_message

end Bson

end QueryPad
