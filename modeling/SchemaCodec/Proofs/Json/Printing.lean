import SchemaCodec.Proofs.Json.RoundTrip
import SchemaCodec.Proofs.Json.Text
import SchemaCodec.Proofs.Wire.Recoding

/-!
# Printed values

The JSON form of a value that was read from bytes, if no float is involved, is printed as a text
from which the same JSON value is read again: words hold its numbers, since an integer that is too
large for one is a text, and its keys are the names of entries, which are distinct. The one thing
that can go wrong is the nesting of the text, which the reader limits and the writer does not.

## Why floats are left out by type

Whether a float is printed exactly depends on the float, so a value is known to have none by its
type: the shapes that references lead to, however often they have to be followed, are no floats.
-/

namespace SchemaCodec

/-! ## Types without floats -/

namespace Graph

/-- A shape that occurs in a type whose references are followed without end. -/
inductive Unfolds (graph : Graph) : (ty shape : Ty) → Prop where
  | self (ty : Ty) : Unfolds graph ty (graph.resolve ty)
  | element {ty element shape : Ty} (array : graph.resolve ty = .array element)
    (nested : Unfolds graph element shape) : Unfolds graph ty shape
  | entry {ty shape : Ty} {entry : String × Ty} (mem : entry ∈ (graph.resolve ty).entries)
    (nested : Unfolds graph entry.2 shape) : Unfolds graph ty shape

/-- No float occurs in a type, however often references are followed. -/
def FloatFree (graph : Graph) (ty : Ty) : Prop := ¬graph.Unfolds ty .float

namespace FloatFree

variable {graph : Graph} {ty : Ty}

theorem resolve_ne (h : graph.FloatFree ty) : graph.resolve ty ≠ .float :=
  fun hshape ↦ h (hshape ▸ .self ty)

theorem element (h : graph.FloatFree ty) {element : Ty}
    (hshape : graph.resolve ty = .array element) : graph.FloatFree element :=
  fun hnested ↦ h (.element hshape hnested)

theorem entry (h : graph.FloatFree ty) {shape : Ty} (hshape : graph.resolve ty = shape)
    {entry : String × Ty} (hmem : entry ∈ shape.entries) : graph.FloatFree entry.2 :=
  fun hnested ↦ h (.entry (hshape ▸ hmem) hnested)

end FloatFree

end Graph

/-! ## What was read is normal -/

namespace Value

variable {graph : Graph} {ty : Ty}

theorem exact_of_exactItems {element : Ty} {items : List Value}
    (h : ExactItems graph element items) : ∀ item ∈ items, item.Exact graph element := by
  induction items with
  | nil => exact fun item hitem ↦ absurd hitem List.not_mem_nil
  | cons item rest ih => exact List.forall_mem_cons.mpr ⟨h.1, ih h.2⟩

/-- Fields that are exact are those found under the names of the entries, in their order. -/
theorem eq_map_of_exactFields {entries : List (String × Ty)} {fields : Members String Value}
    {field : String × Ty → Value} (hnodup : (entries.map Prod.fst).Nodup)
    (hget : ∀ entry ∈ entries, Members.get? entry.1 fields = some (field entry))
    (h : ExactFields graph entries fields) :
    fields = (entries.map fun entry ↦ (entry.1, field entry)) ∧
      ∀ entry ∈ entries, (field entry).Exact graph entry.2 := by
  induction entries generalizing fields with
  | nil =>
    cases fields with
    | nil => exact ⟨rfl, fun _ hentry ↦ absurd hentry List.not_mem_nil⟩
    | cons first rest => exact h.elim
  | cons entry rest ih =>
    cases fields with
    | nil => exact h.elim
    | cons first others =>
      obtain ⟨key, value⟩ := first
      obtain ⟨rfl, hvalue, hothers⟩ := h
      rw [List.map_cons, List.nodup_cons] at hnodup
      have hfirst : value = field entry :=
        Option.some.inj ((if_pos rfl).symm.trans (hget entry List.mem_cons_self))
      -- a name that comes later is not that of the first field
      have hrest : ∀ other ∈ rest, Members.get? other.1 others = some (field other) := by
        intro other hother
        have hne : entry.1 ≠ other.1 :=
          fun heq ↦ hnodup.1 (heq ▸ List.mem_map_of_mem hother)
        exact (if_neg hne).symm.trans (hget other (List.mem_cons_of_mem _ hother))
      obtain ⟨hfields, hexact⟩ := ih hnodup.2 hrest hothers
      refine ⟨?_, List.forall_mem_cons.mpr ⟨hfirst ▸ hvalue, hexact⟩⟩
      rw [List.map_cons, ← hfields, hfirst]

end Value

namespace Json

variable {graph : Graph} {ty : Ty} {value : Value}

/-- A value with exactly the declared fields is normal, if no floats are involved. -/
theorem normal_of_exact
    (hnames : graph.Everywhere (fun part ↦ (part.entries.map Prod.fst).Nodup) ty)
    (hfree : graph.FloatFree ty) (hfits : value.Fits graph ty) (h : value.Exact graph ty) :
    Normal graph ty value := by
  induction hfits with
  | none hshape =>
    exact .of_leaf (.none hshape) (fun shape ↦ by cases shape <;> rfl) rfl
  | boolean hshape b =>
    exact .of_leaf (.boolean hshape b) (fun shape ↦ by cases shape <;> rfl) rfl
  | integer hshape i =>
    exact .of_leaf (.integer hshape i) (fun shape ↦ by cases shape <;> rfl) rfl
  | float hshape x => exact absurd hshape hfree.resolve_ne
  | string hshape s =>
    exact .of_leaf (.string hshape s) (fun shape ↦ by cases shape <;> rfl) rfl
  | bytes hshape bs =>
    exact .of_leaf (.bytes hshape bs) (fun shape ↦ by cases shape <;> rfl) rfl
  | array hshape _ ih =>
    rw [Value.Exact, hshape, Value.ExactShaped] at h
    exact normal_array hshape fun item hitem ↦ ih item hitem (hnames.element hshape)
      (hfree.element hshape) (Value.exact_of_exactItems h item hitem)
  | record hshape hget _ ih =>
    have hself := hnames.resolve.self
    rw [hshape] at hself
    rw [Value.Exact, hshape, Value.ExactShaped] at h
    obtain ⟨rfl, hfields⟩ := Value.eq_map_of_exactFields hself hget h
    exact normal_record hshape hself fun entry hentry ↦ ih entry hentry
      (hnames.entry hshape hentry) (hfree.entry hshape hentry) (hfields entry hentry)
  | choice hshape hget _ ih =>
    have hmem := Members.mem_of_get? hget
    rw [Value.Exact, hshape, Value.ExactShaped, hget] at h
    exact normal_choice hshape hget
      (ih (hnames.entry hshape hmem) (hfree.entry hshape hmem) h)

/-! ## What is printed -/

/-- The text of a value denotes this value: words hold its numbers, and no key is repeated. -/
structure Printable (json : Json) : Prop where
  exact : Exact json
  normal : json.normal = json

theorem normalItems_eq (items : List Json) : normalItems items = items.map normal := by
  induction items with
  | nil => rfl
  | cons item rest ih => rw [normalItems, ih, List.map_cons]

theorem normalMembers_eq {members read : Members String Json}
    (h : (read.keys ++ members.keys).Nodup) :
    normalMembers members read
      = read ++ members.map fun member ↦ (member.1, member.2.normal) := by
  induction members generalizing read with
  | nil => exact (List.append_nil read).symm
  | cons member rest ih =>
    have hnew : member.1 ∉ read.keys := by
      intro hmem
      exact (List.nodup_append.mp h).2.2 _ hmem _ List.mem_cons_self rfl
    rw [normalMembers, Members.put_of_not_mem _ hnew, ih, List.map_cons, List.append_assoc,
      List.singleton_append]
    rw [Members.keys, List.map_append, ← Members.keys, List.append_assoc]
    exact h

theorem Printable.array {items : List Json} (h : ∀ item ∈ items, Printable item) :
    Printable (array items) := by
  have hnormal : items.map Json.normal = items.map id :=
    List.map_congr_left fun item hitem ↦ (h item hitem).normal
  refine ⟨.array fun item hitem ↦ (h item hitem).exact, ?_⟩
  rw [Json.normal, normalItems_eq, hnormal, List.map_id]

theorem Printable.object {members : Members String Json} (hnodup : members.keys.Nodup)
    (h : ∀ member ∈ members, Printable member.2) : Printable (object members) := by
  have hnormal : (members.map fun member ↦ (member.1, member.2.normal)) = members.map id :=
    List.map_congr_left fun member hmember ↦ Prod.ext rfl (h member hmember).normal
  refine ⟨.object fun member hmember ↦ (h member hmember).exact, ?_⟩
  have hkeys : (Members.keys ([] : Members String Json) ++ members.keys).Nodup := hnodup
  rw [Json.normal, normalMembers_eq hkeys, hnormal, List.map_id, List.nil_append]

theorem printable_ofInteger (i : Int) : Printable (ofInteger i) := by
  rw [ofInteger]
  split
  · next hword => exact ⟨.integer hword, rfl⟩
  · exact ⟨.string _, rfl⟩

theorem printable_ofByte (byte : UInt8) : Printable (ofByte byte) := by
  have hlt := byte.toNat_lt
  refine ⟨.integer ⟨?_, ?_⟩, rfl⟩ <;> rw [Nat.pow_eq] <;> omega

/-- The JSON form of a value can be printed, by induction on why the value fits. -/
theorem printable_of_ofValue
    (hnames : graph.Everywhere (fun part ↦ (part.entries.map Prod.fst).Nodup) ty)
    (hfree : graph.FloatFree ty) (hfits : value.Fits graph ty) {json : Json}
    (h : ofValue graph ty value = .ok json) : Printable json := by
  induction hfits generalizing json with
  | none hshape =>
    rw [ofValue, hshape] at h
    cases h
    exact ⟨.null, rfl⟩
  | boolean hshape b =>
    rw [ofValue, hshape] at h
    cases h
    exact ⟨.bool b, rfl⟩
  | integer hshape i =>
    rw [ofValue, hshape] at h
    cases h
    exact printable_ofInteger i
  | float hshape x => exact absurd hshape hfree.resolve_ne
  | string hshape s =>
    rw [ofValue, hshape] at h
    cases h
    exact ⟨.string s, rfl⟩
  | bytes hshape bs =>
    rw [ofValue, hshape] at h
    cases h
    exact .array (List.forall_mem_map.mpr fun byte _ ↦ printable_ofByte byte)
  | array hshape _ ih =>
    rw [ofValue_array hshape] at h
    obtain ⟨jsons, hjsons, rfl⟩ := map_ok h
    obtain ⟨g, rfl, hg⟩ := mapM_ok hjsons
    exact .array (List.forall_mem_map.mpr fun item hitem ↦
      ih item hitem (hnames.element hshape) (hfree.element hshape) (hg item hitem))
  | @record ty entries fields field hshape hget _ ih =>
    have hself := hnames.resolve.self
    rw [hshape] at hself
    rw [ofValue_record hshape hself] at h
    obtain ⟨jsons, hjsons, rfl⟩ := map_ok h
    obtain ⟨g, rfl, hg⟩ := mapM_ok hjsons
    rw [List.zip_map']
    refine .object ?_ (List.forall_mem_map.mpr fun entry hentry ↦ ?_)
    · rw [Members.keys, List.map_map]
      exact hself
    · have hjson := hg entry hentry
      rw [converted_of_get? (hget entry hentry)] at hjson
      exact ih entry hentry (hnames.entry hshape hentry) (hfree.entry hshape hentry) hjson
  | choice hshape hget _ ih =>
    have hmem := Members.mem_of_get? hget
    rw [ofValue_choice hshape hget] at h
    obtain ⟨payload, hpayload, rfl⟩ := map_ok h
    have hown := ih (hnames.entry hshape hmem) (hfree.entry hshape hmem) hpayload
    exact .array (by simpa using And.intro ⟨.string _, rfl⟩ hown)

/-- A printed value is read again from its text, whatever blanks follow, up to the greatest
depth. -/
theorem read?_of_toList {json : Json} (h : Printable json) (layout : Layout) {s : String}
    {blanks : List Char} (hblanks : Blank blanks)
    (hs : s.toList = (render layout json).toList ++ blanks) :
    read? s = within maxNesting json := by
  have hends : EndsNumber blanks := by
    have hnil : EndsNumber [] := by simp [EndsNumber]
    have hend := endsNumber_append hblanks hnil
    rwa [List.append_nil] at hend
  have hskip : skipBlank blanks = [] := by
    have hall := skipBlank_append hblanks []
    rwa [List.append_nil] at hall
  have htext : s.toList = [] ++ (chars layout 0 json ++ blanks) := hs
  have hreads : Reads layout 0 s.toList.length maxNesting (readValue s.toList.length maxNesting)
      json := readValue_reads h.exact 0 maxNesting
  have hread := hreads [] blanks blank_nil hends (by rw [htext]; rfl)
  rw [← htext] at hread
  rw [read?, parse?, ofWhole, hread, within]
  by_cases hdepth : json.depth ≤ maxNesting
  · rw [if_pos hdepth]
    simp [hskip, h.normal]
  · rw [if_neg hdepth]
    rfl

end Json

end SchemaCodec
