import SchemaEmbed.Proofs.FileSystem.Root
import SchemaEmbed.Proofs.FileSystem.Untorn
import SchemaEmbed.Proofs.Run.Steps

namespace SchemaEmbed

open FileSystem

/-!
# Documents that are written back

* `store_all_or_nothing` — **a document is written back** as a whole or not at all;
* `store_never_torn` — **while it is written back** in place of the old file by a new one, its path
  reads as the old file or as the new one.

What a write does to the files of a tree is shown for texts in the modules on files. Here it is
said of documents: the text is the one that the format of the document gives, and a document
without a text is not written at all.
-/

variable {actor : Actor} {mode : WriteMode}

/-- **A document is written back** as a whole or not at all.  If that fails, then all files are as
    they were, and so they are whatever calls the write makes; nothing is written unless the
    document has a text.  If it succeeds, then the path reads as the text and has the mode it had.
    In place nothing has changed but the file that the path leads to; by a new file nothing has
    but the entry that the path ends in. -/
theorem store_all_or_nothing (actor : Actor) (mode : WriteMode) (d : Document) (w : World)
    (tree : w.files.IsTree) :
    (∀ f w', ((World.store actor).store mode d).run.run w = (.error f, w') →
      w'.files = w.files ∧ f.isStoreFailure = true ∧
      ∀ text, d.render = .ok text → ∃ fault, f = .writeFailed d.path fault.message ∧
        EndsAt w.files actor mode d.path text.toUTF8 ⟨.failed fault, w.files⟩)
    ∧ ∀ w', ((World.store actor).store mode d).run.run w = (.ok (), w') →
      ∃ text, d.render = .ok text ∧
        EndsAt w.files actor mode d.path text.toUTF8 ⟨.done, w'.files⟩ ∧
        match mode with
        | .inPlace => HasBytes w.files w'.files d.path text.toUTF8 ∧
          ∃ n u, w.files.resolve actor true d.path = .ok (n :: u) ∧
            OnlyFile w.files w'.files n text.toUTF8
        | .atomic => (∀ old, w.files.readBytes .superuser d.path = .ok old →
            HasBytes w.files w'.files d.path text.toUTF8) ∧
          ∃ directory name mode, w.files.entryOf actor d.path = .ok (directory, name) ∧
            OnlyEntry w.files w'.files directory name ⟨mode, actor, .file text.toUTF8⟩ := by
  have hacts : Acts ((World.store actor).store mode d) _ := Acts.store mode d
  have hfiles := hacts w
  constructor
  · intro f w' hrun
    rw [hrun] at hfiles
    cases hstore : storeFile actor mode d w.files with
    | ok files => simp [hstore] at hfiles
    | error g =>
      obtain ⟨rfl, hsame⟩ : f = g ∧ w'.files = w.files := by simpa [hstore] using hfiles
      refine ⟨hsame, storeFile_error hstore, fun text htext => ?_⟩
      rw [storeFile, htext, ok_bind] at hstore
      obtain ⟨fault, hwrite, rfl⟩ := mapError_eq_error_iff.mp hstore
      rw [writeText_eq] at hwrite
      exact ⟨fault, rfl, endsAt_failed tree hwrite⟩
  · intro w' hrun
    rw [hrun] at hfiles
    cases hstore : storeFile actor mode d w.files with
    | error g => simp [hstore] at hfiles
    | ok files =>
      obtain rfl : w'.files = files := by simpa [hstore] using hfiles
      obtain ⟨text, htext, hstore⟩ := bind_eq_ok_iff.mp hstore
      have hwrite := mapError_eq_ok_iff.mp hstore
      rw [writeText_eq] at hwrite
      refine ⟨text, htext, endsAt_done tree hwrite, ?_⟩
      cases mode with
      | inPlace => exact writeInPlace_settles (mapError_eq_ok_iff.mp hwrite)
      | atomic => exact writeAtomic_settles tree hwrite

/-- A bundle in the directory where paths begin, to be written back with nothing in it. -/
def emptyBundle : Document := ⟨"b.json", Format.json, .object []⟩

/-- The empty bundle is written back by a new file. -/
theorem store_all_or_nothing_bundle :
    ∃ w', ((World.store .superuser).store .atomic emptyBundle).run.run
          ⟨schemaAndBundle "1" "2", []⟩ = (.ok (), w')
      ∧ HasBytes (schemaAndBundle "1" "2") w'.files "b.json" (Json.render (.object [])).toUTF8 := by
  have hname : IsPlainName "b.json" := by decide
  have hwrite : (schemaAndBundle "1" "2").writeText .superuser .atomic "b.json"
      (Json.render (.object [])) = _ :=
    replaceText_plainName hname (show _ = some 2 from rfl) rfl _
  have hstore : storeFile .superuser .atomic emptyBundle (schemaAndBundle "1" "2") = .ok _ :=
    storeFile_eq_ok_iff.mpr ⟨_, rfl, hwrite⟩
  have hacts : Acts ((World.store .superuser).store .atomic emptyBundle) _ :=
    Acts.store .atomic emptyBundle
  have hfiles := hacts ⟨schemaAndBundle "1" "2", []⟩
  simp only [hstore] at hfiles
  have hrun : ((World.store .superuser).store .atomic emptyBundle).run.run
      ⟨schemaAndBundle "1" "2", []⟩ = (.ok (), _) := Prod.ext (Prod.mk.inj hfiles).1 rfl
  obtain ⟨text, htext, -, hhas, -⟩ := (store_all_or_nothing .superuser .atomic emptyBundle
    ⟨schemaAndBundle "1" "2", []⟩ (isTree_schemaAndBundle _ _)).2 _ hrun
  obtain rfl : Json.render (.object []) = text := Except.ok.inj htext
  have hold := (readText_eq_ok_iff.mp (readText_bundle "1" "2")).2
  exact ⟨_, hrun, hhas _ hold⟩

/-- Whether writing a document back by a new file comes to a stage, with or without faults.  It
    does not begin unless the document has a text. -/
def Storing (actor : Actor) (d : Document) (files : FileSystem) (s : Stage) : Prop :=
  match d.render with
  | .error _ => s = ⟨.start, files⟩
  | .ok text => Calls true actor d.path text.toUTF8 .atomic ⟨.start, files⟩ s

/-- **While a document is written back** by a new file, its path reads as the old file or, once
    all calls are done, as the whole text: at every stage of the write, also if a call fails for a
    reason of its own, and so wherever the write is cut short.  And at every stage the path has
    the mode it had. -/
theorem store_never_torn (actor : Actor) (d : Document) (files : FileSystem) (tree : files.IsTree)
    {old : ByteArray} {s : Stage} (hold : files.readBytes .superuser d.path = .ok old)
    (h : Storing actor d files s) :
    (s.phase ≠ .done → HasBytes files s.files d.path old)
      ∧ (s.phase = .done →
        ∃ text, d.render = .ok text ∧ HasBytes files s.files d.path text.toUTF8) := by
  unfold Storing at h
  cases hrender : d.render with
  | error f =>
    rw [hrender] at h
    obtain rfl : s = ⟨.start, files⟩ := h
    exact ⟨fun _ => ⟨hold, rfl⟩, nofun⟩
  | ok text =>
    rw [hrender] at h
    obtain ⟨hbefore, hdone⟩ := Calls.untorn tree hold h
    exact ⟨hbefore, fun hphase => ⟨text, rfl, hdone hphase⟩⟩

/-- When one octet of the new file is written, the bundle still reads as before. -/
theorem store_never_torn_midway :
    ∃ w s, s.phase = .filling w 1 ∧ Storing .superuser emptyBundle (schemaAndBundle "1" "2") s
      ∧ HasBytes (schemaAndBundle "1" "2") s.files "b.json" "2".toUTF8 := by
  have hname : IsPlainName "b.json" := by decide
  have hentry : (schemaAndBundle "1" "2").entryIn? 0 "b.json" = some 2 := rfl
  have hold := (readText_eq_ok_iff.mp (readText_bundle "1" "2")).2
  have hmetadata : (schemaAndBundle "1" "2").metadata .superuser "b.json"
      = .ok (some ⟨0o644, .superuser, .file "2".toUTF8⟩) := by
    rw [metadata, resolve_plainName hname hentry rfl]
    rfl
  obtain ⟨w, hopen⟩ : ∃ w, (schemaAndBundle "1" "2").openTemporary .superuser "b.json"
      (Json.render (.object [])).toUTF8 (some ⟨0o644, .superuser, .file "2".toUTF8⟩) = .ok w := by
    rw [openTemporary, entryOf_plainName hname hentry]
    exact ⟨_, rfl⟩
  -- the file is looked up, a temporary one is made, and one octet is written to it
  have hcalls : Storing .superuser emptyBundle (schemaAndBundle "1" "2")
      ⟨.filling w 1, w.writePart 1 (w.createTemporary (schemaAndBundle "1" "2"))⟩ :=
    ((Relation.ReflTransGen.single (.asked hmetadata)).tail (.created hopen)).tail
      (.wrote Nat.zero_lt_one (by decide))
  have huntorn := store_never_torn .superuser emptyBundle (schemaAndBundle "1" "2")
    (isTree_schemaAndBundle _ _) hold hcalls
  refine ⟨w, _, rfl, hcalls, huntorn.1 ?_⟩
  intro hdone
  cases hdone

end SchemaEmbed
