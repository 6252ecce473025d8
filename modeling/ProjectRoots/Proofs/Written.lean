import ProjectRoots.Event.Written
import ProjectRoots.Graph.Written
import ProjectRoots.Proofs.Json.Reading
import ProjectRoots.Settings.Written

/- What is written is read back: events, roots, entities and settings, whatever texts they hold.
   Each is written as a plain value with members of different names, so what is left to show is that
   every field is read as what it was written from.

     1. `Event.ofValue?_toValue`, `Root.ofValue?_toValue`, `Entity.ofValue?_toValue`,
        `Settings.ofValue?_toValue` — as values.
     2. `Event.ofText?_text`, `Root.ofText?_text`, `Entity.ofText?_text`, `Settings.read_text` — as
        texts.
     3. `read_written` — put together. -/
namespace ProjectRoots

open Json

/-! ## Events -/

namespace Event

theorem nodup_fieldNames (tag : String) : (tagName :: fieldNames tag).Nodup := by
  unfold fieldNames
  split <;> decide

/-- The fields that go with a tag are found in the object with the tag. -/
theorem ofValue?_ofMembers (tag : String) {members : List (String × Value)}
    (hnames : members.map Prod.fst = fieldNames tag) :
    ofValue? (.ofMembers ((tagName, .ofString tag) :: members)) =
      ofFields? tag (members.map fun member => some member.2) := by
  have hnodup : (((tagName, Value.ofString tag) :: members).map Prod.fst).Nodup := by
    rw [List.map_cons, hnames]
    exact nodup_fieldNames tag
  have htag : Value.member? ((tagName, .ofString tag) :: members) tagName =
      some (some (.ofString tag)) :=
    Value.member?_of_mem hnodup List.mem_cons_self
  have hword : Value.required Value.string? (some (.ofString tag)) = some tag := rfl
  have hfields := Value.fieldsOfMembers_of_subset hnodup (List.subset_cons_self _ members)
  rw [hnames] at hfields
  rw [Value.ofMembers, ofValue?, Value.named_ofMembers]
  simp only [Option.bind_eq_bind, Option.bind_some, htag, hword, hfields]

theorem ofValue?_toValue (event : Event) : ofValue? event.toValue = some event := by
  cases event <;> exact ofValue?_ofMembers _ rfl

theorem isPlain_toValue (event : Event) : event.toValue.IsPlain := by
  cases event <;> exact Value.isPlain_ofMembers (by
    simp [Value.isPlain_ofString, Value.isPlain_bool])

/-- What is written of an event can be held: it nests one deep and has no numbers. -/
theorem isHeld_toValue (event : Event) :
    (event.toValue.tokens.all Token.isHeld && nestsWithin deepest 0 event.toValue.tokens) =
      true := by
  cases event <;> rfl

theorem ofText?_text (event : Event) : ofText? event.text = some event := by
  have hlex := Value.lex_tokens event.isPlain_toValue
  have hvalue := Value.ofTokens?_tokens event.toValue
  unfold ofText? text
  simp only [hlex, hvalue, event.isHeld_toValue, Option.bind_eq_bind, Option.bind_some, if_true]
  exact event.ofValue?_toValue

end Event

/-! ## Entities -/

namespace Root

theorem nodup_fieldNames : fieldNames.Nodup := by
  decide

theorem ofValue?_toValue (root : Root) : ofValue? root.toValue = some root := by
  have hfields : root.toValue.fields fieldNames =
      some [some (.ofString root.property), some (.ofString root.url),
        some (.bool root.archiveMount)] :=
    Value.fields_ofMembers nodup_fieldNames
  unfold ofValue?
  rw [hfields]
  rfl

theorem isPlain_toValue (root : Root) : root.toValue.IsPlain := by
  apply Value.isPlain_ofMembers
  simp [Value.isPlain_ofString, Value.isPlain_bool]

theorem ofText?_text (root : Root) : ofText? root.text = some root := by
  rw [ofText?, text, Value.ofText?_text root.isPlain_toValue]
  exact root.ofValue?_toValue

end Root

namespace Entity

theorem nodup_fieldNames : fieldNames.Nodup := by
  decide

theorem ofValue?_toValue (entity : Entity) : ofValue? entity.toValue = some entity := by
  have hfields : entity.toValue.fields fieldNames =
      some [some (.ofString entity.id), some (.ofString entity.kind.text),
        some (.ofString entity.name), some (.array (entity.roots.map Root.toValue))] :=
    Value.fields_ofMembers nodup_fieldNames
  have hkind : Value.required Kind.ofValue? (some (.ofString entity.kind.text)) =
    some entity.kind := Kind.ofText?_text entity.kind
  have hroots : Value.required (Value.list? Root.ofValue?)
    (some (.array (entity.roots.map Root.toValue))) = some entity.roots :=
      Value.list?_array Root.ofValue?_toValue entity.roots
  unfold ofValue?
  rw [hfields]
  simp only [hkind, hroots]
  rfl

theorem isPlain_toValue (entity : Entity) : entity.toValue.IsPlain := by
  apply Value.isPlain_ofMembers
  have hroots : (Value.array (entity.roots.map Root.toValue)).IsPlain :=
    Value.isPlain_array (List.forall_mem_map.2 fun root _ => root.isPlain_toValue)
  simp [Value.isPlain_ofString, hroots]

theorem ofText?_text (entity : Entity) : ofText? entity.text = some entity := by
  rw [ofText?, text, Value.ofText?_text entity.isPlain_toValue]
  exact entity.ofValue?_toValue

end Entity

/-! ## Settings -/

namespace Settings

theorem nodup_fieldNames : fieldNames.Nodup := by
  decide

theorem capacity?_ofNat (capacity : UInt64) :
    capacity? (.number (.ofNat capacity.toNat)) = some capacity := by
  unfold capacity?
  rw [Value.nat?, Numeral.toNat?_ofNat, Option.bind_some, if_pos capacity.toNat_lt,
    UInt64.ofNat_toNat]

theorem ofValue?_toValue (settings : Settings) : ofValue? settings.toValue = some settings := by
  have hfields : settings.toValue.fields fieldNames =
      some [some (.array (settings.archiveSuffixes.map .ofString)),
        some (.array (settings.descriptorExtensions.map .ofString)),
        some (.bool settings.shortCircuit),
        some (.number (.ofNat settings.channelCapacity.toNat))] :=
    Value.fields_ofMembers nodup_fieldNames
  have htext (text : String) : Value.string? (.ofString text) = some text := rfl
  have htexts := Value.list?_array htext
  unfold ofValue?
  rw [hfields]
  simp only [Value.optional, htexts, capacity?_ofNat]
  rfl

theorem isPlain_toValue (settings : Settings) : settings.toValue.IsPlain := by
  apply Value.isPlain_ofMembers
  have htexts (texts : List String) : (Value.array (texts.map .ofString)).IsPlain :=
    Value.isPlain_array (List.forall_mem_map.2 fun text _ => Value.isPlain_ofString text)
  simp [htexts, Value.isPlain_bool, Value.isPlain_ofNat]

theorem ofText?_text (settings : Settings) : ofText? settings.text = some settings := by
  rw [ofText?, text, Value.ofText?_text settings.isPlain_toValue]
  exact settings.ofValue?_toValue

/-- Settings that are written are judged as they are. -/
theorem read_text (settings : Settings) :
    settings.validate = .ok settings ∧ read settings.text = .ok settings ∨
      ∃ fault, settings.validate = .error fault ∧
        read settings.text = .error (.unusable fault) := by
  unfold read validate
  rw [settings.ofText?_text]
  cases hfault : settings.fault? with
  | none => exact Or.inl ⟨rfl, by simp only [hfault]⟩
  | some fault => exact Or.inr ⟨fault, rfl, by simp only [hfault]⟩

end Settings

theorem read_written (event : Event) (root : Root) (entity : Entity) (settings : Settings) :
    Event.ofText? event.text = some event ∧ Root.ofText? root.text = some root ∧
      Entity.ofText? entity.text = some entity ∧
      (settings.validate = .ok settings ∧ Settings.read settings.text = .ok settings ∨
        ∃ fault, settings.validate = .error fault ∧
          Settings.read settings.text = .error (.unusable fault)) :=
  ⟨event.ofText?_text, root.ofText?_text, entity.ofText?_text, settings.read_text⟩

end ProjectRoots
