import SchemaEmbed.Document
import SchemaEmbed.Format.Builtin
import SchemaEmbed.Proofs.Json.RoundTrip

namespace SchemaEmbed.Json

/-!
# JSON documents are read as they were written

A document is more than its text: its format is detected again when it is read back. A path with
the extension of JSON decides that alone. Without it the content must be recognised, and only lists
and objects are, so that it matters that a document of another kind cannot have been recognised in
the first place.

* `container_of_sniff` — a text that is recognised by its content is a list or an object;
* `detect_render` — a document that was read as JSON is recognised as JSON again once it is
  written;
* `json_round_trip` — what reading makes of a text that was written.
-/

/-! ### Recognition by content -/

/-- Blanks are white space; so what comes after them, if it is no white space itself, comes after
    the white space at the start of the text. -/
theorem trimStart_of_skipBlanks {s t : List Char} {c : Char} (h : skipBlanks s = c :: t)
    (hc : Text.isWhiteSpace c = false) : Text.trimStart s = c :: t := by
  have hblank (d : Char) (hd : isBlank d = true) : Text.isWhiteSpace d = true := by
    simp only [isBlank, Bool.or_eq_true, beq_iff_eq] at hd
    rcases hd with ((rfl | rfl) | rfl) | rfl <;> decide
  induction s with
  | nil => cases h
  | cons d s ih =>
    by_cases hd : isBlank d = true
    · rw [skipBlanks, List.dropWhile_cons, if_pos hd] at h
      rw [Text.trimStart, List.dropWhile_cons, if_pos (hblank d hd)]
      exact ih h
    · rw [skipBlanks_of_not_blank (Bool.not_eq_true _ ▸ hd)] at h
      cases h
      rw [Text.trimStart, List.dropWhile_cons, hc]
      rfl

/-- A visible ASCII character is no white space. -/
theorem isWhiteSpace_of_visible {c : Char} (hlow : 0x21 ≤ c.toNat) (hhigh : c.toNat ≤ 0x7E) :
    Text.isWhiteSpace c = false := by
  simp [Text.isWhiteSpace, Text.whiteSpaceRanges]
  omega

/-- A digit is no white space. -/
theorem isWhiteSpace_of_isDigit {c : Char} (h : isDigit c = true) :
    Text.isWhiteSpace c = false := by
  simp only [isDigit, Bool.and_eq_true, decide_eq_true_eq, Char.le_def, UInt32.le_iff_toNat_le] at h
  have hlow : 48 ≤ c.toNat := h.1
  have hhigh : c.toNat ≤ 57 := h.2
  exact isWhiteSpace_of_visible (by omega) (by omega)

/-- Whether a value is a list or an object. -/
def IsContainer : Value → Prop
  | .array _ => True
  | .object _ => True
  | _ => False

/-- A text that begins like a list or an object is read as one. -/
theorem value_isContainer {fuel depth : Nat} {s : List Char} {v : Value} {rest : List Char}
    (h : value fuel depth s = .ok (v, rest))
    (hhead : (Text.trimStart s).head? = some '{' ∨ (Text.trimStart s).head? = some '[') :
    IsContainer v := by
  -- only the cases that begin a list or an object are left
  have hhead' {c : Char} {t : List Char} (hs : skipBlanks s = c :: t)
      (hc : Text.isWhiteSpace c = false) : c = '{' ∨ c = '[' := by
    rw [trimStart_of_skipBlanks hs hc] at hhead
    simpa using hhead
  cases fuel with
  | zero => cases h
  | succ fuel =>
    rw [value] at h
    split at h
    case h_1 => cases h
    case h_2 hs => exact absurd (hhead' hs (by decide)) (by decide)
    case h_3 hs => exact absurd (hhead' hs (by decide)) (by decide)
    case h_4 hs => exact absurd (hhead' hs (by decide)) (by decide)
    case h_5 hs => exact absurd (hhead' hs (by decide)) (by decide)
    case h_6 hs => exact absurd (hhead' hs (by decide)) (by decide)
    case h_7 =>
      cases depth with
      | zero => cases h
      | succ d =>
        obtain ⟨_, -, heq⟩ := map_eq_ok_iff.mp h
        cases heq
        exact trivial
    case h_8 =>
      cases depth with
      | zero => cases h
      | succ d =>
        obtain ⟨_, -, heq⟩ := map_eq_ok_iff.mp h
        cases heq
        exact trivial
    case h_9 hs =>
      split at h
      · next hdigit =>
        rcases hhead' hs (isWhiteSpace_of_isDigit hdigit) with hc | hc
        · exact absurd hc (ne_of_isDigit hdigit (by decide))
        · exact absurd hc (ne_of_isDigit hdigit (by decide))
      · cases h

/-- **A text that is recognised by its content** is a list or an object. -/
theorem container_of_sniff {text : String} {v : Value} (hsniff : sniff text = true)
    (h : parse text = .ok v) : IsContainer v := by
  rw [parse_eq_ok_iff, parseChars, bind_eq_ok_iff] at h
  obtain ⟨⟨w, rest⟩, hvalue, h⟩ := h
  dsimp only at h
  split at h
  · cases h
    simp only [sniff, Bool.and_eq_true, Bool.or_eq_true, beq_iff_eq] at hsniff
    exact value_isContainer hvalue hsniff.1
  · cases h

/-- **The text of a list or an object** is recognised by its content if it is read. -/
theorem sniff_render_eq {v : Value} (hcontainer : IsContainer v) :
    sniff (render v) = (parseChars (render v).toList).isOk := by
  have hhead : ∃ c t, (render v).toList = c :: t ∧ (c = '{' ∨ c = '[') := by
    rw [toList_render]
    rcases v with _ | _ | _ | _ | (_ | ⟨w, rest⟩) | (_ | ⟨⟨k, w⟩, rest⟩)
    case array.nil => exact ⟨_, _, rfl, .inr rfl⟩
    case array.cons => exact ⟨_, _, rfl, .inr rfl⟩
    case object.nil => exact ⟨_, _, rfl, .inl rfl⟩
    case object.cons => exact ⟨_, _, rfl, .inl rfl⟩
    all_goals exact hcontainer.elim
  obtain ⟨c, t, htext, hc⟩ := hhead
  -- there is no white space before a bracket
  have htrim : Text.trimStart (c :: t) = c :: t := by
    have hwhite : Text.isWhiteSpace c = false := by rcases hc with rfl | rfl <;> decide
    rw [Text.trimStart, List.dropWhile_cons, hwhite]
    rfl
  have hbracket : ((c :: t).head? == some '{' || (c :: t).head? == some '[') = true := by
    simpa using hc
  rw [sniff, htext, htrim, hbracket, Bool.true_and]

/-- The text of a list or an object without floats is recognised by its content unless it nests
    too deep. -/
theorem sniff_render {v : Value} (hv : v.WellFormed) (hfloat : v.FloatFree)
    (hdepth : v.depth ≤ maxDepth) (hcontainer : IsContainer v) : sniff (render v) = true := by
  rw [sniff_render_eq hcontainer, (parseChars_render (every_isPlain hv hfloat)).1 hdepth]
  rfl

/-! ### Documents -/

/-- A path with the extension of JSON is claimed by JSON. -/
theorem claims_json {path : String} (h : Path.extension? path = some "json") :
    Format.json.claims path = true := by
  simp [Format.claims, h, Format.json, sameExtension]

/-- A document whose path is claimed is JSON, whatever its text. -/
theorem detect_json {path : String} (h : Format.json.claims path = true) (text : String) :
    Registry.standard.detect path text = .ok Format.json := by
  have hfind : Registry.standard.byExtension? path = some Format.json :=
    List.find?_cons_of_pos h
  rw [Registry.detect, hfind]

/-- **A document that was read as JSON** is recognised as JSON again once it is written. -/
theorem detect_render {path text : String} {v : Value}
    (hdetect : Registry.standard.detect path text = .ok Format.json) (hv : parse text = .ok v)
    (hfloat : v.FloatFree) : Registry.standard.detect path (render v) = .ok Format.json := by
  obtain ⟨hwell, hdepth⟩ := parse_parsed hv
  unfold Registry.detect at hdetect ⊢
  split at hdetect
  · exact hdetect
  · split at hdetect
    · next f hf =>
      -- it was recognised as a list or an object, and is so again
      cases hdetect
      have hsniff : Format.json.sniff text = true :=
        List.find?_some (p := fun g : Format => g.sniff text) hf
      have hagain := sniff_render hwell hfloat hdepth (container_of_sniff hsniff hv)
      have hfind : Registry.standard.formats.find? (·.sniff (render v)) = some Format.json :=
        List.find?_cons_of_pos hagain
      rw [hfind]
    · cases hdetect

/-- **JSON is read as it was written.** A value without floats is written, and read again
    as it was if its containers nest at most 127 deep; if they nest deeper, reading fails
    at the nesting. What was read from any text as JSON and has no floats is written, and
    what is read from that is the same document, whose text is again that one. -/
theorem json_round_trip :
    (∀ v : Value, v.WellFormed → v.FloatFree → ∀ path : String,
      ∃ text, Format.json.serializeAt path v = .ok text
        ∧ (v.depth ≤ 127 → Format.json.parseAt path text = .ok v)
        ∧ (127 < v.depth → ∃ f : Fault, f.cause = .recursionLimit
          ∧ Format.json.parseAt path text
            = .error (.parseFailed path "json" (f.message text.toList))))
    ∧ ∀ (path text : String) (d : Document), Document.ofText .standard path text = .ok d →
      d.format = Format.json → d.value.FloatFree →
        ∃ text', d.render = .ok text' ∧ Document.ofText .standard path text' = .ok d := by
  refine ⟨fun v hv hfloat path => ⟨render v, rfl, fun hdepth => ?_, fun hdepth => ?_⟩, ?_⟩
  · exact mapError_eq_ok_iff.mpr (parse_render hv hfloat hdepth)
  · obtain ⟨f, hcause, hparse⟩ := parse_render_deep hv hfloat hdepth
    exact ⟨f, hcause, mapError_eq_error_iff.mpr ⟨_, hparse, rfl⟩⟩
  · -- what was read is well-formed and nests at most 127 deep, so the first part applies
    intro path text d hload hformat hfloat
    obtain ⟨format, hdetect, h⟩ := bind_eq_ok_iff.mp hload
    obtain ⟨v, hparse, h⟩ := bind_eq_ok_iff.mp h
    cases h
    subst hformat
    have hv : parse text = .ok v := mapError_eq_ok_iff.mp hparse
    obtain ⟨hwell, hdepth⟩ := parse_parsed hv
    refine ⟨render v, rfl, bind_eq_ok_iff.mpr ⟨Format.json, detect_render hdetect hv hfloat, ?_⟩⟩
    have hagain : Format.json.parseAt path (render v) = .ok v :=
      mapError_eq_ok_iff.mpr (parse_render hwell hfloat hdepth)
    rw [hagain]
    rfl

/-- The greatest and the least integer, characters with and without escapes, and an empty
    object are read as they were written, alone and as a document; of nested lists, 127
    are and 128 are not. -/
theorem json_round_trip_limits :
    (∀ v ∈ [Value.object [("\"é\\", .array [.number (.int Number.maxInt),
        .number (.int Number.minInt), .string "\n😀"]), ("", .object [])], .nested 127],
      ∃ text, Format.json.serializeAt "b.json" v = .ok text
        ∧ Document.ofText .standard "b.json" text = .ok ⟨"b.json", Format.json, v⟩
        ∧ ∃ text', Document.render ⟨"b.json", Format.json, v⟩ = .ok text'
          ∧ Document.ofText .standard "b.json" text' = .ok ⟨"b.json", Format.json, v⟩)
    ∧ ∃ text, Format.json.serializeAt "b.json" (.nested 128) = .ok text
      ∧ ∃ f : Fault, f.cause = .recursionLimit ∧ Format.json.parseAt "b.json" text
        = .error (.parseFailed "b.json" "json" (f.message text.toList)) := by
  have hread (v : Value) (hv : v.WellFormed) (hfloat : v.FloatFree) (hdepth : v.depth ≤ 127) :
      ∃ text, Format.json.serializeAt "b.json" v = .ok text
        ∧ Document.ofText .standard "b.json" text = .ok ⟨"b.json", Format.json, v⟩
        ∧ ∃ text', Document.render ⟨"b.json", Format.json, v⟩ = .ok text'
          ∧ Document.ofText .standard "b.json" text' = .ok ⟨"b.json", Format.json, v⟩ := by
    obtain ⟨text, hwrite, hparse, -⟩ := json_round_trip.1 v hv hfloat "b.json"
    have hload : Document.ofText .standard "b.json" text = .ok ⟨"b.json", Format.json, v⟩ := by
      rw [Document.ofText, detect_json (claims_json (by decide)), ok_bind, hparse hdepth]
      rfl
    exact ⟨text, hwrite, hload, json_round_trip.2 "b.json" text _ hload rfl hfloat⟩
  refine ⟨?_, ?_⟩
  · simp only [List.forall_mem_cons, List.not_mem_nil, false_imp_iff, implies_true, and_true]
    refine ⟨hread _ ?_ ?_ (by decide), hread _ (Value.wellFormed_nested 127)
      (Value.floatFree_nested 127) (Nat.le_of_eq (Value.depth_nested 127))⟩
    · have hkeys : ["\"é\\", ""].Nodup := by decide
      refine ⟨hkeys, ⟨trivial, ?_, ?_, trivial, trivial⟩, ⟨List.nodup_nil, trivial⟩, trivial⟩
      · exact ⟨by decide, by decide⟩
      · exact ⟨by decide, by decide⟩
    · exact ⟨trivial, ⟨trivial, trivial, trivial, trivial, trivial⟩, ⟨trivial, trivial⟩, trivial⟩
  · obtain ⟨text, hwrite, -, hdeep⟩ := json_round_trip.1 (.nested 128) (Value.wellFormed_nested 128)
      (Value.floatFree_nested 128) "b.json"
    exact ⟨text, hwrite, hdeep (by rw [Value.depth_nested]; decide)⟩

end SchemaEmbed.Json
