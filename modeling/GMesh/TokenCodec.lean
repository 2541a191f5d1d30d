import Mathlib.Logic.Basic

namespace GMesh

/-- The text form of a continuation the caller hands back unread. -/
structure TokenCodec (σ τ : Type) where
  encode : σ → τ
  decode : τ → Except String σ
  decode_encode : ∀ s, decode (encode s) = .ok s

def TokenCodec.verbatim (σ : Type) : TokenCodec σ σ where
  encode := id
  decode := .ok
  decode_encode := fun _ => rfl

end GMesh
