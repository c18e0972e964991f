import PathQuery.Cache.Settings
import PathQuery.Proofs.Duration.RoundTrip

namespace PathQuery

namespace Settings

theorem readLimit?_ofNat (limit : Nat) : readLimit? (.number (.ofNat limit)) = some limit :=
  Number.toNat?_ofNat limit

theorem readTtl?_text (ttl? : Option Duration) :
    readTtl? (ttl?.elim .null fun ttl => .string ttl.text) = some ttl? := by
  cases ttl? with
  | none => rfl
  | some ttl => rw [Option.elim_some, readTtl?, ttl.ofText?_text, Option.map_some]

theorem ofLiteral?_both (limit ttl : Literal) :
    ofLiteral? (.object [("limit", limit), ("ttl", ttl)]) = ofParts? (some limit) (some ttl) := rfl

theorem ofLiteral?_toLiteral (settings : Settings) :
    ofLiteral? settings.toLiteral = some settings := by
  have parts : ofParts? (some (.number (.ofNat settings.limit)))
      (some (settings.ttl?.elim .null fun ttl => .string ttl.text)) = some settings := by
    simp [ofParts?, readLimit?_ofNat, readTtl?_text, settings.limit_positive,
      settings.limit_bounded]
  rw [toLiteral, ofLiteral?_both, parts]

/-- Settings are read back from what is written for them, and so what is written for settings that
were read, whatever the form they were given in, is read as they were. -/
theorem read_what_is_written :
    (∀ settings : Settings, ofLiteral? settings.toLiteral = some settings) ∧
      ∀ literal : Literal, (ofLiteral? literal).bind (fun settings => ofLiteral? settings.toLiteral) =
        ofLiteral? literal := by
  refine ⟨ofLiteral?_toLiteral, fun literal => ?_⟩
  cases ofLiteral? literal with
  | none => rfl
  | some settings => exact settings.ofLiteral?_toLiteral

end Settings

end PathQuery
