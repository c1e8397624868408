import SchemaCodec.Command.Run
import SchemaCodec.Proofs.Expansion.Graph
import SchemaCodec.Proofs.Json.Printing
import SchemaCodec.Proofs.Schema.PortableFile
import SchemaCodec.Proofs.Wire.Allowance

/-!
# Encoding what was printed

What one command decodes and prints, another command can encode again, under the same schema and
with the same serializer, if no float is involved. The bytes are then at most as many as those that
were decoded: numbers are written in their shortest form, and what stood behind the value is gone.

This holds as far as the text can be read at all. A value may nest 1024 levels deep and is printed
with all of them, but a text is read only up to 127, so a text of greater depth is always refused.
-/

namespace SchemaCodec

open Wire

/-! ## Schemas -/

theorem Graph.WellFormed.distinctNames {graph : Graph} (h : graph.WellFormed) :
    graph.DistinctNames := by
  intro entry hentry part hpart
  have hnamed := h.wellNamed entry hentry part hpart
  cases part with
  | record entries => exact hnamed.2
  | choice entries => exact hnamed.2
  | _ => exact List.nodup_nil

/-- What was read of a type can be written again in no more bytes than there were. -/
theorem Wire.encode_of_decode {graph : Graph} {ty : Ty} {serializer : Serializer}
    {data rest : List UInt8} {value : Value}
    (hnames : graph.Everywhere (fun part ↦ (part.entries.map Prod.fst).Nodup) ty)
    (h : serializer.decode graph ty data = .ok (value, rest)) :
    value.Fits graph ty ∧ value.Exact graph ty ∧
      ∃ bytes, serializer.encode graph ty value = .ok bytes ∧ bytes.length ≤ data.length := by
  have hrange := allInRange_of_decode h
  rw [decode_eq_portable hrange] at h
  obtain ⟨⟨_, later⟩, hread, hvalue⟩ := bind_ok h
  cases hvalue
  obtain ⟨bytes, hform, hexact, hrecodes⟩ := Portable.read_recodes hnames hread
  refine ⟨fits_of_form hform, hexact, bytes, ?_, ?_⟩
  · exact encode_of_form hform fun hfast n hn ↦ hrange hfast n (hrecodes.meets hn)
  · exact (Nat.le_add_right _ _).trans hrecodes.length_le

namespace Command

variable {command : Command} {catalog : Catalog} {files : FileView}

theorem distinctNames_of_loadCatalog (h : command.loadCatalog files = .ok catalog) :
    catalog.graph.DistinctNames := by
  rw [loadCatalog] at h
  split at h
  · cases h
  · have hgraph := Catalog.graph_of_load (mapError_ok h)
    exact (Expansion.wellFormed_of_graphWithin hgraph).distinctNames

theorem everywhere_typeOf (h : command.loadCatalog files = .ok catalog) (type : String) :
    catalog.graph.Everywhere (fun part ↦ (part.entries.map Prod.fst).Nodup)
      (Catalog.typeOf type) := by
  refine (distinctNames_of_loadCatalog h).everywhere fun part hpart ↦ ?_
  rw [List.mem_singleton.mp hpart]
  exact List.nodup_nil

/-! ## Texts -/

/-- A text is what an input holds, with or without the end of its line. -/
def Offers (surroundings : Surroundings) (text : String) (input : Input) : Prop :=
  ∃ s, (s = text ∨ s = text.push '\n') ∧
    match input with
    | .given other => other = s
    | .file path => surroundings.files path = .file (Text.toBytes s)
    | .stdin => surroundings.stdin = Text.toBytes s

/-- A printed value is read from wherever its text is offered, up to the greatest depth. -/
theorem readJson_of_offers {surroundings : Surroundings} {json : Json} {layout : Json.Layout}
    {input : Input} (hjson : json.Printable)
    (h : Offers surroundings (json.render layout) input) :
    readJson surroundings input
      = if json.depth ≤ Json.maxNesting then .ok json else .error (.notJson Json.refusal) := by
  obtain ⟨s, hs, hinput⟩ := h
  have hread : Json.read? s = if json.depth ≤ Json.maxNesting then some json else none := by
    obtain rfl | rfl := hs
    · exact Json.read?_of_toList hjson layout Json.blank_nil (List.append_nil _).symm
    · have hblank : Json.Blank ['\n'] := by simp [Json.Blank, Json.isBlank]
      exact Json.read?_of_toList hjson layout hblank (String.toList_push _)
  have hgiven : readJson surroundings (.given s)
      = if json.depth ≤ Json.maxNesting then .ok json else .error (.notJson Json.refusal) := by
    rw [readJson, hread]
    by_cases hdepth : json.depth ≤ Json.maxNesting
    · rw [if_pos hdepth, if_pos hdepth]
    · rw [if_neg hdepth, if_neg hdepth]
  -- bytes of a text are read as the text is
  have hbytes : jsonOfBytes (Text.toBytes s) = readJson surroundings (.given s) := by
    rw [jsonOfBytes, Text.ofBytes?_toBytes]
    rfl
  rw [← hgiven, ← hbytes]
  cases input with
  | given other =>
    cases hinput
    exact hbytes.symm
  | file path =>
    rw [readJson, readSource, show surroundings.files path = _ from hinput]
    rfl
  | stdin =>
    rw [readJson, readSource, show surroundings.stdin = _ from hinput]
    rfl

/-! ## Decoding and encoding -/

/-- The JSON value that was decoded can be printed, and it is encoded again in no more bytes. -/
theorem encodeJson_of_decodeJson (hload : command.loadCatalog files = .ok catalog) {type : String}
    (hfree : catalog.graph.FloatFree (Catalog.typeOf type)) {data : List UInt8} {json : Json}
    (h : decodeJson catalog type data = .ok json) :
    json.Printable ∧
      ∃ bytes, encodeJson catalog type json = .ok bytes ∧ bytes.length ≤ data.length := by
  have hnames := everywhere_typeOf hload type
  obtain ⟨⟨value, rest⟩, hdecode, hjson⟩ := bind_ok h
  have hof : Json.ofValue catalog.graph (Catalog.typeOf type) value = .ok json :=
    mapError_ok hjson
  obtain ⟨hfits, hexact, bytes, hencode, hlength⟩ :=
    encode_of_decode hnames (mapError_ok hdecode)
  refine ⟨Json.printable_of_ofValue hnames hfree hfits hof, bytes, ?_, hlength⟩
  -- the value is its own canonical form, so it is the one that comes back
  have hto := ((Json.returns_of_fits hnames hfits).good_of_eq hof).1
  rw [(Json.normal_of_exact hnames hfree hfits hexact).canon] at hto
  have hvalue : (catalog.ofJson type json).mapError Failure.bridge = .ok value :=
    congrArg (Except.mapError Failure.bridge) hto
  rw [encodeJson, bind_of_ok hvalue]
  exact congrArg (Except.mapError Failure.wire) hencode

theorem run_eq {surroundings : Surroundings}
    (hload : command.loadCatalog surroundings.files = .ok catalog) :
    command.run surroundings = match perform surroundings catalog command.action with
      | .ok output => ⟨0, output, ""⟩
      | .error failure => ⟨1, [], failure.report (command.color.isOn surroundings.terminal)⟩ := by
  rw [run, hload]
  rfl

/-- A command that decodes and ends well has printed what was decoded. -/
theorem decoded_of_run (command : Command) {around : Surroundings}
    (hload : command.loadCatalog around.files = .ok catalog) {type : String} {source : Input}
    {layout : Json.Layout} (haction : command.action = .decode type source layout)
    (h : (command.run around).code = 0) :
    ∃ data json, readBytes around source = .ok data ∧ decodeJson catalog type data = .ok json ∧
      (command.run around).stdout = line (json.render layout) := by
  rw [run_eq hload, haction] at h ⊢
  cases hperform : perform around catalog (.decode type source layout) with
  | error failure =>
    rw [hperform] at h
    cases h
  | ok output =>
    obtain ⟨data, hdata, hrest⟩ := bind_ok hperform
    obtain ⟨json, hjson, houtput⟩ := bind_ok hrest
    cases houtput
    exact ⟨data, json, hdata, hjson, rfl⟩

/-- A printed value that is offered to a command that encodes. -/
theorem run_of_offers (command : Command) {later : Surroundings}
    (hload : command.loadCatalog later.files = .ok catalog) {type : String} {input : Input}
    (haction : command.action = .encode type input true) {json : Json} {layout : Json.Layout}
    (hjson : json.Printable) (hoffers : Offers later (json.render layout) input)
    {bytes : List UInt8} (hbytes : encodeJson catalog type json = .ok bytes) :
    command.run later =
      if json.depth ≤ Json.maxNesting then ⟨0, line (Hex.encode bytes), ""⟩
      else ⟨1, [], "error: invalid JSON input: " ++ Json.refusal ++ "\n"⟩ := by
  rw [run_eq hload, haction, perform, readJson_of_offers hjson hoffers]
  by_cases hdepth : json.depth ≤ Json.maxNesting
  · rw [if_pos hdepth, if_pos hdepth, bind_of_ok rfl, bind_of_ok hbytes]
    rfl
  · rw [if_neg hdepth, if_neg hdepth]
    rfl

/-- **What is printed can be encoded.** Let a command decode bytes of a type without floats and end
well, and let its text be offered, in any way, to a command that encodes it under the same schema.
If the text nests at most 127 arrays and objects, the bytes come out in hexadecimal, and they are at
most as many as those that were decoded; if it nests more, it is refused as no JSON text, for a
reason that the reader of such texts gives. -/
theorem encode_printed (command : Command) {around later : Surroundings}
    (hload : command.loadCatalog around.files = .ok catalog)
    (hlater : command.loadCatalog later.files = .ok catalog) {type : String}
    (hfree : catalog.graph.FloatFree (Catalog.typeOf type)) {source : Input} (layout : Json.Layout)
    (hrun : (run { command with action := .decode type source layout } around).code = 0) :
    ∃ data json, readBytes around source = .ok data ∧ decodeJson catalog type data = .ok json ∧
      (run { command with action := .decode type source layout } around).stdout
        = line (json.render layout) ∧
      ∀ input, Offers later (json.render layout) input →
        (json.depth ≤ Json.maxNesting → ∃ bytes, bytes.length ≤ data.length ∧
          run { command with action := .encode type input true } later
            = ⟨0, line (Hex.encode bytes), ""⟩) ∧
        (Json.maxNesting < json.depth → ∃ reason,
          run { command with action := .encode type input true } later
            = ⟨1, [], "error: invalid JSON input: " ++ reason ++ "\n"⟩) := by
  obtain ⟨data, json, hdata, hjson, hprinted⟩ :=
    decoded_of_run { command with action := .decode type source layout } hload rfl hrun
  obtain ⟨hprintable, bytes, hbytes, hlength⟩ := encodeJson_of_decodeJson hload hfree hjson
  refine ⟨data, json, hdata, hjson, hprinted, fun input hoffers ↦ ?_⟩
  have hencode := run_of_offers { command with action := .encode type input true } hlater rfl
    hprintable hoffers hbytes
  refine ⟨fun hdepth ↦ ⟨bytes, hlength, ?_⟩, fun hdepth ↦ ?_⟩
  · rw [hencode, if_pos hdepth]
  · exact ⟨Json.refusal, by rw [hencode, if_neg (not_le.mpr hdepth)]⟩

/-! ## Arrays in arrays -/

/-- A command whose schema declares arrays that hold arrays of their own type. -/
def towers (action : Action) : Command := ⟨[], ["module M\nL=Array(L)"], none, .auto, action⟩

/-- The graph of this schema. -/
def towersGraph : Graph :=
  Graph.builtins.insert (.qualified "M" "L") (.array (.ref (.qualified "M" "L")))

/-- An empty array within so many others. -/
def tower : Nat → Value
  | 0 => .array []
  | height + 1 => .array [tower height]

def towerBytes : Nat → List UInt8
  | 0 => [0x80]
  | height + 1 => 0x81 :: towerBytes height

def towerJson : Nat → Json
  | 0 => .array []
  | height + 1 => .array [towerJson height]

theorem exists_loadCatalog_towers (action : Action) (files : FileView) :
    ∃ catalog, (towers action).loadCatalog files = .ok catalog ∧ catalog.graph = towersGraph := by
  have hexpands : Expansion.graph .standard
      [⟨"M", [⟨"L", [], .ref ⟨none, "Array"⟩ [.ref ⟨none, "L"⟩ []]⟩]⟩] = .ok towersGraph := by
    decide +kernel
  obtain ⟨catalog, hload, hmodules⟩ := Catalog.exists_load_text files "module M\nL=Array(L)"
    ⟨"M", [⟨"L", [], .ref ⟨none, "Array"⟩ [.ref ⟨none, "L"⟩ []]⟩]⟩
    (by decide +kernel) (by rw [hexpands]; rfl)
  have hgraph := Catalog.graph_of_load hload
  rw [hmodules] at hgraph
  have hcommand : (towers action).loadCatalog files
      = (Catalog.load files .standard [.text "module M\nL=Array(L)"]).mapError .catalog :=
    if_neg Bool.false_ne_true
  rw [hload] at hcommand
  exact ⟨catalog, hcommand, Except.ok.inj (hgraph.symm.trans hexpands)⟩

theorem typeOf_towers : Catalog.typeOf "M.L" = .ref (.qualified "M" "L") := by
  decide +kernel

theorem resolve_towers :
    towersGraph.resolve (Catalog.typeOf "M.L") = .array (Catalog.typeOf "M.L") := by
  rw [typeOf_towers]
  rfl

theorem floatFree_towers : towersGraph.FloatFree (Catalog.typeOf "M.L") := by
  have hshape : ∀ ty shape, towersGraph.Unfolds ty shape → ty = Catalog.typeOf "M.L" →
      shape ≠ .float := by
    intro ty shape h
    induction h with
    | self ty =>
      rintro rfl
      rw [resolve_towers]
      exact Ty.noConfusion
    | element harray _ ih =>
      rintro rfl
      rw [resolve_towers] at harray
      exact ih (Ty.array.inj harray).symm
    | entry hmem =>
      rintro rfl
      rw [resolve_towers] at hmem
      exact absurd hmem List.not_mem_nil
  exact fun h ↦ hshape _ _ h rfl rfl

theorem form_tower (height : Nat) {levels : Nat} (h : height < levels) :
    form towersGraph levels (Catalog.typeOf "M.L") (tower height) = .ok (towerBytes height) := by
  induction height generalizing levels with
  | zero =>
    obtain ⟨levels, rfl⟩ := Nat.exists_eq_succ_of_ne_zero (Nat.ne_of_gt h)
    unfold form
    rw [resolve_towers]
    rfl
  | succ height ih =>
    obtain ⟨levels, rfl⟩ := Nat.exists_eq_succ_of_ne_zero (by omega : levels ≠ 0)
    unfold form
    rw [resolve_towers]
    change (join (form towersGraph levels (Catalog.typeOf "M.L")) [tower height]).map _ = _
    rw [join, bind_of_ok (ih (by omega))]
    change Except.ok (Groups.write 1 ++ (towerBytes height ++ [])) = _
    rw [List.append_nil]
    rfl

theorem canon_tower (height : Nat) :
    (tower height).canon towersGraph (Catalog.typeOf "M.L") = tower height := by
  induction height with
  | zero => exact Value.canon_array [] resolve_towers
  | succ height ih =>
    rw [tower, Value.canon_array _ resolve_towers, List.map_singleton, ih]

theorem elements_tower (height : Nat) : (tower height).elements = height := by
  induction height with
  | zero => rfl
  | succ height ih =>
    rw [tower, Value.elements_array, List.map_singleton, List.sum_singleton, ih]
    exact Nat.add_comm 1 height

theorem parts_tower {height : Nat} {part : Value} (h : part ∈ (tower height).parts) :
    ∃ lower, part = tower lower := by
  induction height with
  | zero => exact ⟨0, List.mem_singleton.mp h⟩
  | succ height ih =>
    rw [tower, Value.parts, Value.itemsParts_eq, List.flatMap_singleton] at h
    rcases List.mem_cons.mp h with rfl | h
    · exact ⟨height + 1, rfl⟩
    · exact ih h

theorem addressable_tower (height : Nat) : (tower height).Addressable := by
  intro part hpart
  obtain ⟨lower, rfl⟩ := parts_tower hpart
  cases lower with
  | zero => exact Nat.two_pow_pos 63
  | succ lower => exact Nat.one_lt_two_pow (by decide)

theorem integers_tower (height : Nat) : (tower height).integers = [] := by
  refine List.filterMap_eq_nil_iff.mpr fun part hpart ↦ ?_
  obtain ⟨lower, rfl⟩ := parts_tower hpart
  cases lower <;> rfl

theorem ofValue_tower (height : Nat) :
    Json.ofValue towersGraph (Catalog.typeOf "M.L") (tower height) = .ok (towerJson height) := by
  induction height with
  | zero => exact Json.ofValue_array resolve_towers []
  | succ height ih =>
    rw [tower, Json.ofValue_array resolve_towers, List.mapM_cons, bind_of_ok ih]
    rfl

theorem depth_towerJson (height : Nat) : (towerJson height).depth = height + 1 := by
  induction height with
  | zero => rfl
  | succ height ih => simp [towerJson, Json.depth, Json.itemsDepth, ih]

theorem decodeJson_towerBytes (hgraph : catalog.graph = towersGraph) {height : Nat}
    (h : height < maxDepth) :
    decodeJson catalog "M.L" (towerBytes height) = .ok (towerJson height) := by
  have hle : ((tower height).canon towersGraph (Catalog.typeOf "M.L")).elements
      ≤ (towerBytes height).length + zeroWidthAllowance := by
    rw [canon_tower, elements_tower]
    have hallowance : maxDepth ≤ zeroWidthAllowance := by norm_num [maxDepth, zeroWidthAllowance]
    omega
  have hintegers : ∀ i ∈ ((tower height).canon towersGraph (Catalog.typeOf "M.L")).integers,
      Groups.Word.InRange i := by
    rw [canon_tower, integers_tower]
    exact fun i hi ↦ absurd hi List.not_mem_nil
  have htype : (Catalog.typeOf "M.L").DistinctNames ∧ (Catalog.typeOf "M.L").Addressable := by
    rw [typeOf_towers]
    decide
  have hdecode := decode_of_elements_le (by decide) htype.1 (by decide) htype.2
    (addressable_tower height) (form_tower height h) [] catalog.serializer (fun _ ↦ hintegers) hle
  rw [canon_tower, List.append_nil] at hdecode
  have hvalue : (catalog.decode "M.L" (towerBytes height)).mapError Failure.wire
      = .ok (tower height, []) := by
    rw [Catalog.decode, hgraph, hdecode]
    rfl
  rw [decodeJson, bind_of_ok hvalue]
  dsimp only
  rw [Catalog.toJson, hgraph, ofValue_tower]
  rfl

theorem run_decode_tower {around : Surroundings} {source : Input} {height : Nat}
    (hdata : readBytes around source = .ok (towerBytes height)) (h : height < maxDepth)
    (layout : Json.Layout) :
    run (towers (.decode "M.L" source layout)) around
      = ⟨0, line ((towerJson height).render layout), ""⟩ := by
  obtain ⟨catalog, hload, hgraph⟩ :=
    exists_loadCatalog_towers (.decode "M.L" source layout) around.files
  have hperform : perform around catalog (.decode "M.L" source layout)
      = .ok (line ((towerJson height).render layout)) := by
    rw [perform, bind_of_ok hdata, bind_of_ok (decodeJson_towerBytes hgraph h)]
    rfl
  rw [run_eq hload, towers, hperform]

/-- An array in an array is printed, and the text is encoded again. -/
theorem encode_printed_tower :
    let around : Surroundings := ⟨fun _ ↦ default, [], false⟩
    run (towers (.decode "M.L" (.given "8180") .compact)) around = ⟨0, line "[[]]", ""⟩ ∧
    ∃ bytes, bytes.length ≤ 2 ∧
      run (towers (.encode "M.L" (.given "[[]]") true)) around
        = ⟨0, line (Hex.encode bytes), ""⟩ := by
  intro around
  have htext : (towerJson 1).render .compact = "[[]]" := by decide +kernel
  have hhex : Hex.decode? "8180" = some (towerBytes 1) := by decide +kernel
  have hbytes : readBytes around (.given "8180") = .ok (towerBytes 1) := by rw [readBytes, hhex]
  have hdecode := run_decode_tower hbytes (by decide) .compact
  rw [htext] at hdecode
  refine ⟨hdecode, ?_⟩
  obtain ⟨catalog, hload, hgraph⟩ := exists_loadCatalog_towers .check around.files
  obtain ⟨data, json, hdata, hjson, -, haccepts⟩ :=
    encode_printed (towers .check) hload hload (hgraph ▸ floatFree_towers) .compact
      (congrArg Outcome.code hdecode)
  cases hbytes.symm.trans hdata
  cases (decodeJson_towerBytes hgraph (by decide)).symm.trans hjson
  exact (haccepts (.given "[[]]") ⟨"[[]]", .inl htext.symm, rfl⟩).1 (by decide)

/-- A tower of 128 arrays is printed, and its text is refused. -/
theorem encode_printed_tooDeep :
    let around : Surroundings := ⟨fun _ ↦ default, [], false⟩
    let text := (towerJson 127).render .compact
    (∃ catalog, (towers .check).loadCatalog around.files = .ok catalog ∧
      catalog.graph.FloatFree (Catalog.typeOf "M.L")) ∧
    run (towers (.decode "M.L" (.given (Hex.encode (towerBytes 127))) .compact)) around
      = ⟨0, line text, ""⟩ ∧
    ∃ reason, run (towers (.encode "M.L" (.given text) true)) around
      = ⟨1, [], "error: invalid JSON input: " ++ reason ++ "\n"⟩ := by
  intro around text
  have hhex : Hex.decode? (Hex.encode (towerBytes 127)) = some (towerBytes 127) := by
    rw [Hex.decode?, Hex.plainDigits, Hex.encode, String.toList_ofList]
    decide +kernel
  have hbytes : readBytes around (.given (Hex.encode (towerBytes 127)))
      = .ok (towerBytes 127) := by rw [readBytes, hhex]
  have hhigh : (127 : Nat) < maxDepth := by decide
  have hdecode := run_decode_tower hbytes hhigh .compact
  refine ⟨?_, hdecode, ?_⟩
  · obtain ⟨catalog, hload, hgraph⟩ := exists_loadCatalog_towers .check around.files
    exact ⟨catalog, hload, hgraph ▸ floatFree_towers⟩
  · obtain ⟨catalog, hload, hgraph⟩ :=
      exists_loadCatalog_towers (.encode "M.L" (.given text) true) around.files
    obtain ⟨hprintable, bytes, hencode, -⟩ :=
      encodeJson_of_decodeJson hload (hgraph ▸ floatFree_towers)
        (decodeJson_towerBytes hgraph hhigh)
    have hoffers : Offers around text (.given text) := ⟨text, .inl rfl, rfl⟩
    have hdeep : ¬(towerJson 127).depth ≤ Json.maxNesting := by
      rw [depth_towerJson]
      decide
    refine ⟨Json.refusal, ?_⟩
    rw [run_of_offers _ hload rfl hprintable hoffers hencode, if_neg hdeep]

end Command

end SchemaCodec
