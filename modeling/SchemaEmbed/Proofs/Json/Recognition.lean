import SchemaEmbed.Proofs.Json.Document
import SchemaEmbed.Proofs.Json.Members

namespace SchemaEmbed.Json

/-!
# Recognising JSON and reading it

A text is recognised as JSON by what comes after the white space at its start, and then read with
this white space. All blanks of JSON are white space, but not all white space is blanks:

* `value_fuel` — reading does not depend on how much fuel there is, as a value is never spelled by
  nothing;
* `parseChars_blanks` / `parseChars_white` — blanks before a text are skipped, and other white
  space is where reading stops;
* `recognised_iff_read` — **recognition and reading** agree exactly if only blanks come before the
  text;
* `no_break_space_not_read` — a text that is recognised and cannot be read.

The white space is dropped in one of the two readings that are compared, so that they start with
different amounts of fuel.
-/

/-! ### Fuel

A list takes one of the fuel for its bracket, and an item one for what stands next and one for
itself. As each of them is spelled by at least one character, two for each character are enough;
the lemma that what follows a value is shorter counts them.
-/

mutual

/-- **More fuel** than two for each character changes nothing about how a value is read. -/
theorem value_succ : ∀ (fuel depth : Nat) {s : List Char}, 2 * s.length + 1 ≤ fuel →
    value (fuel + 1) depth s = value fuel depth s
  | 0, _, _, h => by omega
  | fuel + 1, depth, s, h => by
    rw [value, value]
    split
    case h_7 rest hs =>
      have hlt := (isRest_of_skipBlanks hs).length_lt
      cases depth with
      | zero => rfl
      | succ depth =>
        have hitems := items_succ fuel depth true (s := rest) (by omega)
        simp only [hitems]
    case h_8 rest hs =>
      have hlt := (isRest_of_skipBlanks hs).length_lt
      cases depth with
      | zero => rfl
      | succ depth =>
        have hmembers := members_succ fuel depth true (s := rest) (by omega)
        simp only [hmembers]
    all_goals rfl

/-- More fuel than two for each character, and one for the end, changes nothing about how the
    items of a list are read. -/
theorem items_succ : ∀ (fuel depth : Nat) (first : Bool) {s : List Char}, 2 * s.length + 2 ≤ fuel →
    items (fuel + 1) depth first s = items fuel depth first s
  | 0, _, _, _, h => by omega
  | fuel + 1, depth, first, s, h => by
    rw [items, items]
    refine bind_congr_of_ok fun ahead hahead => ?_
    have hspec := itemAhead_spec hahead
    cases ahead with
    | close rest => rfl
    | entry text =>
      -- an item that is not the first one comes after a comma, and so is shorter still
      have htext : text.length ≤ s.length := by
        cases first with
        | true =>
          have htext : text = skipBlanks s := hspec
          rw [htext]
          exact length_skipBlanks_le s
        | false =>
          obtain ⟨after, hcomma, rfl⟩ := hspec
          exact (length_skipBlanks_le after).trans (isRest_of_skipBlanks hcomma).length_lt.le
      simp only
      rw [value_succ fuel depth (by omega)]
      refine bind_congr_of_ok fun (v, rest) hv => ?_
      have hlt := (value_spells hv).isRest.length_lt
      simp only
      rw [items_succ fuel depth false (by omega)]

/-- More fuel than two for each character, and one for the end, changes nothing about how the
    members of an object are read. -/
theorem members_succ : ∀ (fuel depth : Nat) (first : Bool) {s : List Char},
    2 * s.length + 2 ≤ fuel → members (fuel + 1) depth first s = members fuel depth first s
  | 0, _, _, _, h => by omega
  | fuel + 1, depth, first, s, h => by
    rw [members, members]
    refine bind_congr_of_ok fun ahead hahead => ?_
    have hspec := memberAhead_spec hahead
    cases ahead with
    | close rest => rfl
    | entry text =>
      -- the quote of the key is read already
      have htext : text.length < s.length := by
        cases first with
        | true => exact (isRest_of_skipBlanks hspec).length_lt
        | false =>
          obtain ⟨after, hcomma, hquote⟩ := hspec
          exact ((isRest_of_skipBlanks hquote).trans (isRest_of_skipBlanks hcomma)).length_lt
      simp only
      refine bind_congr_of_ok fun (key, after) hkey => ?_
      have hkeylt := (isRest_of_decode hkey).length_lt
      refine bind_congr_of_ok fun after' hcolon => ?_
      have hcolonlt : after'.length < after.length :=
        (isRest_of_skipBlanks (colon_spec hcolon)).length_lt
      rw [value_succ fuel depth (by omega)]
      refine bind_congr_of_ok fun (v, rest) hv => ?_
      have hlt := (value_spells hv).isRest.length_lt
      simp only
      rw [members_succ fuel depth false (by omega)]

end

/-- Any two amounts of fuel that are large enough for a text give the same. -/
theorem value_fuel {fuel fuel' : Nat} (depth : Nat) {s : List Char} (h : 2 * s.length + 1 ≤ fuel)
    (hle : fuel ≤ fuel') : value fuel' depth s = value fuel depth s := by
  induction fuel', hle using Nat.le_induction with
  | base => rfl
  | succ fuel' hle ih => rw [value_succ fuel' depth (h.trans hle), ih]

/-! ### White space before a text -/

/-- A value is told by what follows the blanks at the head of its text. -/
theorem value_congr (fuel depth : Nat) {s t : List Char} (h : skipBlanks s = skipBlanks t) :
    value (fuel + 1) depth s = value (fuel + 1) depth t := by
  rw [value, value, h]

/-- Blanks before a text are skipped with those at its head. -/
theorem skipBlanks_append {blanks : List Char} (h : ∀ c ∈ blanks, isBlank c = true)
    (s : List Char) : skipBlanks (blanks ++ s) = skipBlanks s := by
  rw [skipBlanks, List.dropWhile_append_of_pos h]
  rfl

/-- **Blanks before a text** change nothing about how it is read. -/
theorem parseChars_blanks {blanks : List Char} (h : ∀ c ∈ blanks, isBlank c = true)
    (s : List Char) : parseChars (blanks ++ s) = parseChars s := by
  have hvalue : value (2 * (blanks ++ s).length + 2) maxDepth (blanks ++ s)
      = value (2 * s.length + 2) maxDepth s := by
    rw [value_congr _ _ (skipBlanks_append h s), List.length_append]
    exact value_fuel maxDepth (by omega) (by omega)
  rw [parseChars, parseChars, hvalue]

/-- The white space before the first other character of a text. -/
def margin (text : String) : List Char := text.toList.takeWhile Text.isWhiteSpace

/-- Whether a text has only blanks as white space before its first other character. -/
def HasBlankMargin (text : String) : Prop := ∀ c ∈ margin text, isBlank c = true

instance (text : String) : Decidable (HasBlankMargin text) :=
  List.decidableBAll (isBlank · = true) (margin text)

/-- A text is what it is without white space at its start, after that white space. -/
theorem margin_append (text : String) : margin text ++ Text.trimStart text.toList = text.toList :=
  List.takeWhile_append_dropWhile

/-- A text from whose start the white space was dropped has none left there. -/
theorem trimStart_trimStart (s : List Char) :
    Text.trimStart (Text.trimStart s) = Text.trimStart s :=
  List.dropWhile_idempotent _ s

/-- Where other white space comes after the blanks, no value begins. -/
theorem value_white {c : Char} {s rest : List Char} (hs : skipBlanks s = c :: rest)
    (hc : Text.isWhiteSpace c = true) (fuel depth : Nat) :
    value (fuel + 1) depth s = .error (.peek .expectedValue (c :: rest)) := by
  -- no character that begins a value is white space
  have hne {d : Char} {t : List Char} (hd : Text.isWhiteSpace d = false)
      (ht : skipBlanks s = d :: t) : False := by
    obtain ⟨rfl, -⟩ := List.cons.inj (hs.symm.trans ht)
    rw [hc] at hd
    cases hd
  rw [value]
  split
  case h_1 ht => cases hs.symm.trans ht
  case h_9 ht =>
    obtain ⟨rfl, rfl⟩ := List.cons.inj (hs.symm.trans ht)
    rw [if_neg fun hdigit => hne (isWhiteSpace_of_isDigit hdigit) hs]
  all_goals next ht => exact (hne (by decide) ht).elim

/-- White space that is no blank is where reading stops: it says that a value is expected at its
    first such character. -/
theorem parseChars_white {text : String} (h : ¬ HasBlankMargin text) :
    ∃ c rest, Text.isWhiteSpace c = true ∧ skipBlanks text.toList = c :: rest
      ∧ parseChars text.toList = .error (.peek .expectedValue (c :: rest)) := by
  -- the first character of the margin that is no blank is left when blanks are skipped
  have hfirst : ∀ m : List Char, (∀ c ∈ m, Text.isWhiteSpace c = true) →
      ¬ (∀ c ∈ m, isBlank c = true) → ∀ s, ∃ c rest, Text.isWhiteSpace c = true
        ∧ skipBlanks (m ++ s) = c :: rest := by
    intro m hm hnot s
    induction m with
    | nil => exact absurd (List.forall_mem_nil _) hnot
    | cons c m ih =>
      obtain ⟨hc, hm⟩ := List.forall_mem_cons.mp hm
      by_cases hblank : isBlank c = true
      · have hskip : skipBlanks (c :: m ++ s) = skipBlanks (m ++ s) :=
          skipBlanks_append (List.forall_mem_singleton.mpr hblank) (m ++ s)
        rw [hskip]
        exact ih hm fun hall => hnot (List.forall_mem_cons.mpr ⟨hblank, hall⟩)
      · exact ⟨c, m ++ s, hc, skipBlanks_of_not_blank (Bool.not_eq_true _ ▸ hblank) (m ++ s)⟩
  obtain ⟨c, rest, hc, hs⟩ := hfirst (margin text) (fun c hc => (List.mem_takeWhile_imp hc)) h
    (Text.trimStart text.toList)
  rw [margin_append] at hs
  refine ⟨c, rest, hc, hs, ?_⟩
  rw [parseChars, value_white hs hc]
  rfl

/-! ### Recognition -/

/-- When a text is read: it is a value with nothing but blanks after it. -/
theorem parseChars_eq_ok_iff {s : List Char} {v : Value} :
    parseChars s = .ok v ↔
      ∃ rest, value (2 * s.length + 2) maxDepth s = .ok (v, rest) ∧ skipBlanks rest = [] := by
  rw [parseChars, bind_eq_ok_iff]
  constructor
  · rintro ⟨⟨w, rest⟩, hvalue, h⟩
    dsimp only at h
    split at h
    · next hrest =>
      cases h
      exact ⟨rest, hvalue, hrest⟩
    · cases h
  · rintro ⟨rest, hvalue, hrest⟩
    refine ⟨(v, rest), hvalue, ?_⟩
    dsimp only
    rw [hrest]
    rfl

/-- A list or an object begins with its bracket or brace. -/
theorem head_of_isContainer {fuel depth : Nat} {s rest : List Char} {v : Value}
    (h : value fuel depth s = .ok (v, rest)) (hv : IsContainer v) :
    ∃ c t, skipBlanks s = c :: t ∧ (c = '{' ∨ c = '[') := by
  cases value_spells h with
  | array hs => exact ⟨_, _, hs, .inr rfl⟩
  | object hs => exact ⟨_, _, hs, .inl rfl⟩
  | _ => exact hv.elim

/-- **What is recognised** are lists and objects, whatever white space comes before them. -/
theorem sniff_iff (text : String) :
    sniff text = true ↔ ∃ v, parseChars (Text.trimStart text.toList) = .ok v ∧ IsContainer v := by
  have hread : (parseChars (Text.trimStart text.toList)).isOk = true ↔
      ∃ v, parseChars (Text.trimStart text.toList) = .ok v := by
    cases parseChars (Text.trimStart text.toList) <;> simp [Except.isOk, Except.toBool]
  simp only [sniff, Bool.and_eq_true, Bool.or_eq_true, beq_iff_eq, hread]
  constructor
  · rintro ⟨hhead, v, hv⟩
    obtain ⟨rest, hvalue, -⟩ := parseChars_eq_ok_iff.mp hv
    exact ⟨v, hv, value_isContainer hvalue (by rwa [trimStart_trimStart])⟩
  · rintro ⟨v, hv, hcontainer⟩
    obtain ⟨rest, hvalue, -⟩ := parseChars_eq_ok_iff.mp hv
    obtain ⟨c, t, hs, hc⟩ := head_of_isContainer hvalue hcontainer
    have hwhite : Text.isWhiteSpace c = false := by rcases hc with rfl | rfl <;> decide
    refine ⟨?_, v, hv⟩
    rw [← trimStart_trimStart, trimStart_of_skipBlanks hs hwhite]
    simpa using hc

/-- **What is read as a list or an object** is what is recognised with only blanks before it. -/
theorem parse_container_iff (text : String) :
    (∃ v, parse text = .ok v ∧ IsContainer v) ↔ sniff text = true ∧ HasBlankMargin text := by
  simp only [parse_eq_ok_iff, sniff_iff]
  by_cases h : HasBlankMargin text
  · have hsame : parseChars text.toList = parseChars (Text.trimStart text.toList) :=
      (congrArg parseChars (margin_append text)).symm.trans (parseChars_blanks h _)
    simp [hsame, h]
  · obtain ⟨c, rest, -, -, hparse⟩ := parseChars_white h
    simp [hparse, h]

/-- A format that is detected at a path which no format claims recognises the text. -/
theorem sniff_of_detect {r : Registry} {path text : String} {f : Format}
    (hpath : r.byExtension? path = none) (h : r.detect path text = .ok f) :
    f.sniff text = true := by
  rw [Registry.detect, hpath] at h
  dsimp only at h
  split at h
  · next hfind =>
    cases h
    exact List.find?_some (p := fun g : Format => g.sniff text) hfind
  · cases h

/-- **Recognition and reading agree** on lists and objects as far as blanks go: what is read as
    one is recognised; what is recognised is one without the white space before it, and is read
    exactly if this white space is blanks.  So a document that is detected by its content is a
    list or an object if only blanks come before it, and otherwise cannot be read, because no
    value begins with the first character that is no blank. -/
theorem recognised_iff_read (text : String) :
    (Format.json.sniff text = true ↔
      ∃ v, Format.json.parse (String.ofList (Text.trimStart text.toList)) = .ok v ∧ IsContainer v)
    ∧ ((∃ v, Format.json.parse text = .ok v ∧ IsContainer v) ↔
      Format.json.sniff text = true ∧ HasBlankMargin text)
    ∧ ∀ (r : Registry) (path : String), r.byExtension? path = none →
      r.detect path text = .ok Format.json →
        (HasBlankMargin text → ∃ v, IsContainer v
          ∧ Document.ofText r path text = .ok ⟨path, Format.json, v⟩)
        ∧ (¬ HasBlankMargin text → ∃ c rest, Text.isWhiteSpace c = true
          ∧ skipBlanks text.toList = c :: rest
          ∧ Document.ofText r path text = .error (.parseFailed path "json"
            ((Fault.peek .expectedValue (c :: rest)).message text.toList))) := by
  refine ⟨?_, parse_container_iff text, fun r path hpath hdetect => ⟨fun h => ?_, fun h => ?_⟩⟩
  · show sniff text = true ↔ ∃ v, parse _ = .ok v ∧ _
    simp only [parse_eq_ok_iff, String.toList_ofList, sniff_iff]
  · obtain ⟨v, hv, hcontainer⟩ :=
      (parse_container_iff text).mpr ⟨sniff_of_detect hpath hdetect, h⟩
    have hparse : Format.json.parseAt path text = .ok v := mapError_eq_ok_iff.mpr hv
    refine ⟨v, hcontainer, ?_⟩
    rw [Document.ofText, hdetect, ok_bind, hparse]
    rfl
  · obtain ⟨c, rest, hc, hs, hparse⟩ := parseChars_white h
    have hparse : Format.json.parseAt path text = .error (.parseFailed path "json"
        ((Fault.peek .expectedValue (c :: rest)).message text.toList)) := by
      refine mapError_eq_error_iff.mpr ⟨_, ?_, rfl⟩
      show parse text = _
      rw [parse, hparse]
    refine ⟨c, rest, hc, hs, ?_⟩
    rw [Document.ofText, hdetect, ok_bind, hparse]
    rfl

/-- An object after a line feed is read, and one after a no-break space is not, because there is
    no value that begins with it. -/
theorem recognised_object_read :
    (∃ v, IsContainer v ∧ Document.ofText .standard "b" "\n\x7b\x7d" = .ok ⟨"b", Format.json, v⟩)
      ∧ ∃ c rest, Text.isWhiteSpace c = true ∧ skipBlanks "\u00a0\x7b\x7d".toList = c :: rest
        ∧ Document.ofText .standard "b" "\u00a0\x7b\x7d" = .error (.parseFailed "b" "json"
          ((Fault.peek .expectedValue (c :: rest)).message "\u00a0\x7b\x7d".toList)) :=
  ⟨((recognised_iff_read "\n\x7b\x7d").2.2 .standard "b" rfl rfl).1 (by decide),
    ((recognised_iff_read "\u00a0\x7b\x7d").2.2 .standard "b" rfl rfl).2 (by decide)⟩

/-- **A no-break space before an object**: the text is recognised, and so its document is JSON,
    which cannot be read. -/
theorem no_break_space_not_read :
    Format.json.sniff "\u00a0\x7b\x7d" = true
      ∧ Format.json.parse "\u00a0\x7b\x7d" = .error "expected value at line 1 column 1"
      ∧ Registry.standard.detect "b" "\u00a0\x7b\x7d" = .ok Format.json
      ∧ Document.ofText .standard "b" "\u00a0\x7b\x7d"
        = .error (.parseFailed "b" "json" "expected value at line 1 column 1") :=
  ⟨by decide, rfl, rfl, rfl⟩

end SchemaEmbed.Json
