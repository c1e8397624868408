import SchemaCodec.Proofs.Bisimulation
import SchemaCodec.Wire.Serializer

/-!
# Bisimilar types on the wire

Both serializers chase references at each level and go on with the shape. Through two types whose
shapes are paired they therefore take the same way: the same numbers and payloads are written and
read, the same levels and elements are counted, and where one stops the other stops with the same
failure.
-/

namespace SchemaCodec.Wire

variable {graph other : Graph} {R : Ty → Ty → Prop} {ty ty' : Ty}

namespace Portable

theorem write_eq (hR : graph.Pairing other R) (levels : Nat) (h : R ty ty')
    (value : Value) (out : List UInt8) :
    write graph levels ty value out = write other levels ty' value out := by
  induction levels generalizing ty ty' value out with
  | zero => rfl
  | succ levels ih =>
    have hpaired := hR ty ty' h
    unfold write
    generalize graph.resolve ty = shape, other.resolve ty' = shape' at hpaired ⊢
    cases hpaired with
    | @leaf b _ hleaf => cases b <;> cases hleaf <;> cases value <;> rfl
    | @array element element' helement => cases value with
      | array items =>
        have hstep : (fun out item ↦ write graph levels element item out)
            = fun out item ↦ write other levels element' item out :=
          funext fun out ↦ funext fun item ↦ ih helement item out
        dsimp only
        rw [hstep]
      | _ => rfl
    | record hentries => cases value with
      | record fields =>
        refine hentries.foldlM_eq (fun out name ty ty' hty ↦ ?_) out
        dsimp only
        cases Members.get? name fields with
        | none => rfl
        | some field => exact ih hty field out
      | _ => rfl
    | @choice entries entries' hentries => cases value with
      | choice variant payload =>
        dsimp only
        rw [hentries.position?_eq]
        rcases hentries.get?_cases variant with ⟨ty, ty', hget, hget', hty⟩ | ⟨hget, hget'⟩
        · rw [hget, hget']
          cases Members.position? variant entries' with
          | none => rfl
          | some index => exact ih hty payload _
        · rw [hget, hget']
          cases Members.position? variant entries' <;> rfl
      | _ => rfl

theorem readFields_eq {read read' : Ty → Source → Except WireError (Value × Source)}
    (h : ∀ ty ty', R ty ty' → read ty = read' ty') {entries entries' : List (String × Ty)}
    (hentries : EntriesAlike R entries entries') (fields : Members String Value) (source : Source) :
    readFields read entries fields source = readFields read' entries' fields source := by
  induction hentries generalizing fields source with
  | nil => rfl
  | @cons entry entry' rest rest' hentry _ ih =>
    rw [readFields, readFields, h entry.2 entry'.2 hentry.2, hentry.1]
    exact congrArg _ (funext fun r ↦ ih _ r.2)

theorem read_eq (hR : graph.Pairing other R) (levels : Nat) (h : R ty ty') :
    read graph levels ty = read other levels ty' := by
  induction levels generalizing ty ty' with
  | zero => rfl
  | succ levels ih =>
    funext source
    have hpaired := hR ty ty' h
    unfold read
    generalize graph.resolve ty = shape, other.resolve ty' = shape' at hpaired ⊢
    cases hpaired with
    | @leaf b _ hleaf => cases b <;> cases hleaf <;> rfl
    | array helement =>
      dsimp only
      rw [ih helement]
    | record hentries =>
      have hfields := readFields_eq (fun _ _ hty ↦ ih hty) hentries [] source
      dsimp only
      rw [hfields]
    | @choice entries entries' hentries =>
      refine bind_congr fun r ↦ ?_
      dsimp only
      rw [entryAt?, entryAt?, hentries.length_eq]
      by_cases hindex : 0 ≤ r.1
      · rw [if_pos hindex, if_pos hindex]
        rcases hentries.getElem?_cases r.1.toNat with
          ⟨name, ty, ty', hget, hget', hty⟩ | ⟨hget, hget'⟩
        · rw [hget, hget']
          dsimp only
          rw [ih hty]
        · rw [hget, hget']
      · rw [if_neg hindex, if_neg hindex]

end Portable

namespace Fast

theorem write_eq (hR : graph.Pairing other R) (levels : Nat) (h : R ty ty')
    (value : Value) (buffer : Array UInt8) :
    write graph levels ty value buffer = write other levels ty' value buffer := by
  induction levels generalizing ty ty' value buffer with
  | zero => rfl
  | succ levels ih =>
    have hpaired := hR ty ty' h
    unfold write
    generalize graph.resolve ty = shape, other.resolve ty' = shape' at hpaired ⊢
    cases hpaired with
    | @leaf b _ hleaf => cases b <;> cases hleaf <;> cases value <;> rfl
    | @array element element' helement => cases value with
      | array items =>
        have hstep : (fun buffer item ↦ write graph levels element item buffer)
            = fun buffer item ↦ write other levels element' item buffer :=
          funext fun buffer ↦ funext fun item ↦ ih helement item buffer
        dsimp only
        rw [hstep]
      | _ => rfl
    | record hentries => cases value with
      | record fields =>
        refine hentries.foldlM_eq (fun buffer name ty ty' hty ↦ ?_) buffer
        dsimp only
        cases Members.get? name fields with
        | none => rfl
        | some field => exact ih hty field buffer
      | _ => rfl
    | @choice entries entries' hentries => cases value with
      | choice variant payload =>
        dsimp only
        rw [hentries.position?_eq]
        rcases hentries.get?_cases variant with ⟨ty, ty', hget, hget', hty⟩ | ⟨hget, hget'⟩
        · rw [hget, hget']
          cases Members.position? variant entries' with
          | none => rfl
          | some index => exact congrArg _ (funext fun buffer ↦ ih hty payload buffer)
        · rw [hget, hget']
          cases Members.position? variant entries' <;> rfl
      | _ => rfl

theorem read_eq (hR : graph.Pairing other R) (data : Array UInt8) (levels : Nat) (h : R ty ty') :
    read graph data levels ty = read other data levels ty' := by
  induction levels generalizing ty ty' with
  | zero => rfl
  | succ levels ih =>
    funext cursor
    have hpaired := hR ty ty' h
    unfold read
    generalize graph.resolve ty = shape, other.resolve ty' = shape' at hpaired ⊢
    cases hpaired with
    | @leaf b _ hleaf => cases b <;> cases hleaf <;> rfl
    | array helement =>
      dsimp only
      rw [ih helement]
    | record hentries =>
      refine congrArg₂ Bind.bind (hentries.foldlM_eq (fun state name ty ty' hty ↦ ?_) _) rfl
      dsimp only
      rw [ih hty]
    | @choice entries entries' hentries =>
      refine bind_congr fun r ↦ ?_
      dsimp only
      rw [hentries.length_eq]
      by_cases hindex : r.1 < 0
      · rw [if_pos hindex, if_pos hindex]
      · rw [if_neg hindex, if_neg hindex]
        rcases hentries.getElem?_cases r.1.toInt.toNat with
          ⟨name, ty, ty', hget, hget', hty⟩ | ⟨hget, hget'⟩
        · rw [hget, hget']
          dsimp only
          rw [ih hty]
        · rw [hget, hget']

end Fast

/-! ## Whole values -/

theorem encode_eq (hR : graph.Pairing other R) (h : R ty ty') (serializer : Serializer)
    (value : Value) : serializer.encode graph ty value = serializer.encode other ty' value := by
  cases serializer with
  | portable => exact congrArg (Except.map List.reverse) (Portable.write_eq hR maxDepth h value [])
  | fast => exact congrArg (Except.map Array.toList) (Fast.write_eq hR maxDepth h value #[])

theorem decode_eq (hR : graph.Pairing other R) (h : R ty ty') (serializer : Serializer)
    (data : List UInt8) : serializer.decode graph ty data = serializer.decode other ty' data := by
  cases serializer with
  | portable =>
    change Portable.decode graph ty data = Portable.decode other ty' data
    rw [Portable.decode, Portable.decode, Portable.read_eq hR maxDepth h]
  | fast =>
    change Fast.decode graph ty data = Fast.decode other ty' data
    rw [Fast.decode, Fast.decode, Fast.read_eq hR data.toArray maxDepth h]

end SchemaCodec.Wire
