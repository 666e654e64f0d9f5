import SchemaEmbed.Proofs.Run.Scalars
import SchemaEmbed.Proofs.Yaml.Tags

namespace SchemaEmbed

open Yaml

/-!
# Tags of a bundle

A structured value has no tags, so that a YAML bundle with a tag cannot be written back as it is:

* `yaml_tags_settle` — **the bundle is refused** if a tag in it is one of the document's own, and
  otherwise is read as what is there without any tags;
* `yaml_local_tag_refused` — a lone exclamation mark before a scalar, the least tag of the
  document's own that there is;
* `yaml_tag_lost` — a tag of the other kind.

What decides is how the tag begins once its handle has been replaced by what it stands for, and
not how it is written: `!x` and `!<!x>` are the same tag, and `!!x` is one of the document's own
as soon as a directive lets `!!` stand for a text that begins with an exclamation mark.
-/

/-- **Tags** that a node has, also after merging, in a key or in a value:

* a bundle with a tag that begins with an exclamation mark is refused with a message that names
  such a tag, and stays as it is;
* any other tag has had its effect on the scalar beside it, and is lost;
* a tag begins with what its handle stands for, or with its suffix if that is nothing or if the
  tag is written out. -/
theorem yaml_tags_settle (path text : String) :
    (∀ e, Marked.read text = .error e →
      Format.yaml.parseAt path text = .error (.parseFailed path "yaml" e.message))
    ∧ (∀ m, Marked.read text = .ok m →
      (m.Bears TagName.IsLocal →
        ∃ f : Finding, (m.Bears fun τ => τ.own? = some f.tag)
          ∧ Format.yaml.parseAt path text = .error (.parseFailed path "yaml" f.message)
          ∧ ∀ (actor : Actor) (r : Registry) (options : Options) (schema : Value)
            (files : FileSystem), files.readText actor path = .ok text →
            r.detect path text = .ok Format.yaml →
            embedFile actor r options schema path files
              = (.error (.parseFailed path "yaml" f.message), files))
      ∧ (¬ m.Bears TagName.IsLocal → Yaml.read text = m.bare.toValue))
    ∧ (∀ handles handle suffix τ, Handles.resolve? handles handle suffix = some τ →
      (τ.IsLocal ↔ ∃ before name, (if handle = "" then before = "" else
        handles.lookup handle = some (.text before)) ∧ suffix = .text name ∧
        (before ++ name).toList.head? = some '!')) := by
  refine ⟨fun e he => ?_, fun m hm => ⟨fun hlocal => ?_, (read_settles hm).2⟩,
    fun _ _ _ _ => resolve_isLocal_iff⟩
  · have hread : Yaml.read text = .error e := by
      rw [Marked.read_eq, he]
      rfl
    exact mapError_eq_error_iff.mpr ⟨_, mapError_eq_error_iff.mpr ⟨e, hread, rfl⟩, rfl⟩
  · obtain ⟨f, hbears, hread⟩ := (read_settles hm).1 hlocal
    have hparse : Format.yaml.parseAt path text = .error (.parseFailed path "yaml" f.message) :=
      mapError_eq_error_iff.mpr ⟨_, mapError_eq_error_iff.mpr ⟨.tag f, hread, rfl⟩, rfl⟩
    exact ⟨f, hbears, hparse, fun _ _ _ _ _ htext hformat =>
      embedFile_unparsed htext hformat hparse⟩

/-- A lone exclamation mark is refused before a scalar, too: it is a tag of the document's own
    like any other, and the message shows it after the mark that every tag is shown with. -/
theorem yaml_local_tag_refused :
    (Marked.pair (.text "!") "foo").Bears TagName.IsLocal
      ∧ ∃ f : Finding, ((Marked.pair (.text "!") "foo").Bears fun τ => τ.own? = some f.tag)
        ∧ Format.yaml.parseAt "doc" "a: ! foo\n" = .error (.parseFailed "doc" "yaml" f.message)
        ∧ f.message = "tagged value `!!` at `a` is not supported" := by
  have hread : Marked.read "a: ! foo\n" = .ok (Marked.pair (.text "!") "foo") := by
    have htokens : tokenize "a: ! foo\n".toList = .ok [.blockMappingStart, .key,
        .scalar "a" .plain, .value, .tag "" (.text "!"), .scalar "foo" .plain, .blockEnd,
        .streamEnd] := by decide +kernel
    exact Marked.read_pair htokens rfl rfl
  have hlocal : (Marked.pair (.text "!") "foo").Bears TagName.IsLocal :=
    .value List.mem_cons_self (.here rfl (by decide))
  obtain ⟨f, hbears, hparse, -⟩ := ((yaml_tags_settle "doc" "a: ! foo\n").2.1 _ hread).1 hlocal
  -- the tag that is found is worded once more, now for this text
  have hmessage : Format.yaml.parseAt "doc" "a: ! foo\n" = .error (.parseFailed "doc" "yaml"
      "tagged value `!!` at `a` is not supported") := by
    have hparse : Yaml.parse "a: ! foo\n"
        = .error "tagged value `!!` at `a` is not supported" := by
      rw [Yaml.parse, Marked.read_eq, hread]
      rfl
    exact mapError_eq_error_iff.mpr ⟨_, hparse, rfl⟩
  have heq := hparse.symm.trans hmessage
  rw [Except.error.injEq, Failure.parseFailed.injEq] at heq
  exact ⟨hlocal, f, hbears, hparse, heq.2.2⟩

/-- **A tag that is lost**: it is neither one of the document's own nor one of the core schema, and
    the text is read without it. -/
theorem yaml_tag_lost :
    let τ := TagName.text "tag:yaml.org,2002:binary"
    Handles.standard.resolve? "!!" (.text "binary") = some τ ∧ τ ∉ coreTags
      ∧ Marked.read "a: !!binary aGk=\n" = .ok (Marked.pair τ "aGk=")
      ∧ ((Marked.pair τ "aGk=").Bears fun τ => τ ∉ coreTags)
      ∧ Format.yaml.parseAt "doc" "a: !!binary aGk=\n" = .ok (.object [("a", .string "aGk=")]) := by
  intro τ
  have hcore : τ ∉ coreTags := by decide +kernel
  have htokens : tokenize "a: !!binary aGk=\n".toList = .ok [.blockMappingStart, .key,
      .scalar "a" .plain, .value, .tag "!!" (.text "binary"), .scalar "aGk=" .plain, .blockEnd,
      .streamEnd] := by decide +kernel
  have hread : Marked.read "a: !!binary aGk=\n" = .ok (Marked.pair τ "aGk=") :=
    Marked.read_pair htokens rfl rfl
  have hparse : Yaml.parse "a: !!binary aGk=\n" = .ok (.object [("a", .string "aGk=")]) := by
    rw [Yaml.parse, Marked.read_eq, hread]
    rfl
  exact ⟨rfl, hcore, hread, .value List.mem_cons_self (.here rfl hcore),
    mapError_eq_ok_iff.mpr hparse⟩

end SchemaEmbed
