import HyruleProxy.ControlRuns
import HyruleProxy.HeaderKeys
import HyruleProxy.JsonStable

namespace HyruleProxy
set_option autoImplicit true

namespace ControlAPI

/-- The bytes that may stand between the tokens of JSON. -/
def isBlank (b : UInt8) : Bool := b ∈ lit " \t\r\n"

theorem isSpace_toNat_lt (h : Json.isSpace c = true) : c.toNat < 128 := by
  simp only [Json.isSpace, Bool.or_eq_true, decide_eq_true_eq] at h
  rcases h with ((rfl | rfl) | rfl) | rfl <;> decide

theorem isBlank_iff (hb : b < 128) : isBlank b = Json.isSpace (Char.ofNat b.toNat) := by
  revert b
  decide +kernel

theorem skipSpace_eq_nil (cs : List Char) :
    Json.skipSpace cs = [] ↔ ∀ c ∈ cs, Json.isSpace c = true :=
  List.dropWhile_eq_nil_iff

theorem lt_of_isBlank (h : isBlank b = true) : b < 128 := by
  revert b
  decide +kernel

theorem blank_runes_iff (t : GoString) :
    (∀ c ∈ runes t, Json.isSpace c = true) ↔ ∀ b ∈ t, isBlank b = true := by
  constructor
  · intro h
    induction t using runes_induction with
    | nil => simp
    | rune c t ih =>
      rw [runes_encode, List.forall_mem_cons] at h
      obtain ⟨b, hb, hn, he⟩ := exists_byte_of_ascii (isSpace_toNat_lt h.1)
      rw [he, List.singleton_append, List.forall_mem_cons]
      refine ⟨?_, ih h.2⟩
      rw [isBlank_iff hb, hn, Char.ofNat_toNat]
      exact h.1
    | invalid b t hd ih =>
      rw [runes_invalid hd, List.forall_mem_cons] at h
      exact absurd h.1 (by decide)
  · intro h c hc
    have hascii : IsASCII t := fun b hb => lt_of_isBlank (h b hb)
    rw [runes_ascii hascii] at hc
    obtain ⟨b, hb, rfl⟩ := List.mem_map.1 hc
    rw [← isBlank_iff (hascii b hb)]
    exact h b hb

/-- A decoder that takes objects and `null` only. -/
def TakesStruct (decode : Json → Option σ) : Prop :=
  ∀ v req, decode v = some req → v = .null ∨ ∃ ms, v = .obj ms

theorem takesStruct_decodeStruct (fields : List (String × (σ → Json → Option σ))) (zero : σ)
    (f : σ → τ) : TakesStruct fun v => (decodeStruct fields zero v).map f := by
  intro v req h
  obtain ⟨d, hd, _⟩ := Option.map_eq_some_iff.1 h
  cases v with
  | null => exact .inl rfl
  | obj ms => exact .inr ⟨ms, rfl⟩
  | bool b => cases hd
  | num text => cases hd
  | str s => cases hd
  | arr vs => cases hd

theorem decodeJSON_eq_ok {decode : Json → Option σ} :
    decodeJSON decode ⟨data, none⟩ = .ok req ↔ data.length ≤ maxControlBodyBytes ∧
      ∃ v rest, Json.parseValue maxNestingDepth (runes data) = some (v, rest) ∧
        decode v = some req ∧ ∀ c ∈ rest, Json.isSpace c = true := by
  rw [decodeJSON, readBody]
  constructor
  · intro h
    split at h
    · cases h
    · rename_i hlen
      refine ⟨Nat.not_lt.1 hlen, ?_⟩
      simp only [bind, Except.bind] at h
      split at h
      · cases h
      · rename_i v rest hp
        split at h
        · cases h
        · rename_i r hd
          split at h
          · rename_i hs
            cases h
            exact ⟨v, rest, hp, hd, (skipSpace_eq_nil rest).1 hs⟩
          · cases h
  · rintro ⟨hlen, v, rest, hp, hd, hs⟩
    rw [if_neg (Nat.not_lt.2 hlen)]
    simp only [bind, Except.bind, hp, hd, (skipSpace_eq_nil rest).2 hs, if_true]

theorem decodeJSON_append {decode : Json → Option σ} (hdecode : TakesStruct decode)
    (h : decodeJSON decode ⟨data, none⟩ = .ok req) (t : GoString) :
    decodeJSON decode ⟨data ++ t, none⟩ =
      if maxControlBodyBytes < data.length + t.length then .error .tooLarge
      else if t.all isBlank then .ok req else .error .trailing := by
  obtain ⟨_, v, rest, hp, hd, hs⟩ := decodeJSON_eq_ok.1 h
  obtain ⟨u, w, rfl, rfl, hparse⟩ := Json.parseValue_bytes (hdecode v req hd) hp
  have hblank : Json.skipSpace (runes (w ++ t)) = [] ↔ t.all isBlank := by
    rw [skipSpace_eq_nil, blank_runes_iff, List.forall_mem_append, List.all_eq_true]
    exact and_iff_right ((blank_runes_iff w).1 hs)
  rw [decodeJSON, readBody, List.append_assoc]
  simp only [List.length_append, ← Nat.add_assoc]
  split
  · rfl
  · simp only [bind, Except.bind, hparse, hd, hblank]

/-- Whatever follows a body that is accepted, the body as a whole is too large, or is refused for
what follows, or all of it is blank and the request is the same. -/
theorem trailing_data_refused (data t : GoString) :
    (∀ req, decodeJSON decodeCreate ⟨data, none⟩ = .ok req →
      decodeJSON decodeCreate ⟨data ++ t, none⟩ =
        if maxControlBodyBytes < data.length + t.length then .error .tooLarge
        else if t.all isBlank then .ok req else .error .trailing) ∧
    ∀ req, decodeJSON decodeExtend ⟨data, none⟩ = .ok req →
      decodeJSON decodeExtend ⟨data ++ t, none⟩ =
        if maxControlBodyBytes < data.length + t.length then .error .tooLarge
        else if t.all isBlank then .ok req else .error .trailing := by
  have hextend : TakesStruct decodeExtend := by
    intro v req h
    have hstruct : decodeStruct extendFields ⟨0⟩ v = some req := h
    exact takesStruct_decodeStruct extendFields ⟨0⟩ id v req
      (by simp only [hstruct, Option.map_some, id])
  exact ⟨fun req h => decodeJSON_append (takesStruct_decodeStruct _ _ _) h t,
    fun req h => decodeJSON_append hextend h t⟩

/-- The bracket that the comment in `decodeJSON` is about. -/
theorem trailing_data_refused_bracket :
    decodeJSON decodeExtend ⟨lit "\x7b\"duration_seconds\":60\x7d", none⟩ = .ok ⟨60⟩ ∧
    decodeJSON decodeExtend ⟨lit "\x7b\"duration_seconds\":60\x7d" ++ lit "]", none⟩ =
      .error .trailing := by
  have h : decodeJSON decodeExtend ⟨lit "\x7b\"duration_seconds\":60\x7d", none⟩ = .ok ⟨60⟩ := by
    decide
  exact ⟨h, (trailing_data_refused _ (lit "]")).2 ⟨60⟩ h⟩

end ControlAPI

end HyruleProxy
