import KnowledgeBase.Documents
import KnowledgeBase.Redaction

/-! The data boundary gateway: what of a request crosses to the model, and the record of
the crossing. -/

namespace KnowledgeBase

structure GenerationSettings where
  generationMaxPassages : Nat
  generationIncludeRestricted : Bool
  gatewayRedact : Bool

inductive ProviderError where
  | generationError (message : String)
  | other (message : String)
  deriving DecidableEq

/-- The text of a reply, and the tokens in and out. -/
structure Completion where
  text : Text
  inputTokens : Nat
  outputTokens : Nat

structure AnswerProvider where
  modelName : String
  endpoint : Option String
  complete : Text → Text → Except ProviderError Completion

/-- What the provider is called with. -/
structure ModelRequest where
  system : Text
  user : Text
  deriving DecidableEq

structure BoundaryRecord where
  tier : String
  destination : String
  model : String
  passagesConsidered : Nat
  passagesSent : Nat
  passagesWithheldRestricted : Nat
  masked : List MaskedValue

namespace DataBoundaryGateway

def tierOrder : List (String × Nat) :=
  [(Classification.public.value, 0), (Classification.restricted.value, 1)]

/-- The highest tier present; a missing or unknown one counts as the highest. -/
def classifyFrom (highest : String) : List (Option String) → String
  | [] => highest
  | none :: _ => Classification.restricted.value
  | some tier :: tiers =>
    match Table.get tierOrder tier with
    | none => Classification.restricted.value
    | some rank =>
      if (Table.get tierOrder highest).getD 0 < rank then classifyFrom tier tiers
      else classifyFrom highest tiers

def classify (tiers : List (Option String)) : String :=
  classifyFrom Classification.public.value tiers

/-- A passage that is not explicitly public is withheld, unless the settings let it out. -/
def mayLeave (cfg : GenerationSettings) (tier : Option String) : Bool :=
  cfg.generationIncludeRestricted || tier = some Classification.public.value

/-- The passages that may leave, with their places in the request. -/
def kept (cfg : GenerationSettings) (passages : List Text) (tiers : List (Option String)) :
    List (Nat × Text × Option String) :=
  ((passages.zip tiers).zipIdx.filter fun p => mayLeave cfg p.1.2).map fun p =>
    (p.2, p.1.1, p.1.2)

inductive Refusal where
  | lengths (passages tiers : Nat)
  | allRestricted
  deriving DecidableEq

def Refusal.message : Refusal → String
  | lengths passages tiers =>
    s!"{passages} passages against {tiers} classifications — refusing to guess which is which."
  | allRestricted => "Every passage was restricted; nothing may be sent to an external model."

structure Crossing where
  request : ModelRequest
  outcome : Except ProviderError (Completion × BoundaryRecord)

/-- Classifies, redacts, sends and records. The caller composes the message from the
passages that are left, each with its place. -/
def send (u : Unicode) (cfg : GenerationSettings) (provider : AnswerProvider) (system : Text)
    (passages : List Text) (tiers : List (Option String))
    (buildUser : List (Nat × Text) → Text) : Except Refusal Crossing :=
  if passages.length ≠ tiers.length then .error (.lengths passages.length tiers.length)
  else
    let left := kept cfg passages tiers
    if left.isEmpty then .error .allRestricted
    else
      let texts := left.map fun p => p.2.1
      let (bodies, masked) := if cfg.gatewayRedact then redact u texts else (texts, [])
      let record : BoundaryRecord :=
        { tier := classify (left.map fun p => p.2.2)
          destination := provider.endpoint.getD provider.modelName
          model := provider.modelName
          passagesConsidered := passages.length
          passagesSent := bodies.length
          passagesWithheldRestricted := tiers.countP fun tier => !mayLeave cfg tier
          masked }
      let user := buildUser ((left.map Prod.fst).zip bodies)
      .ok { request := { system, user }
            outcome := (provider.complete system user).map fun c => (c, record) }

variable {u : Unicode} {cfg : GenerationSettings} {provider : AnswerProvider} {system : Text}
  {passages : List Text} {tiers : List (Option String)} {buildUser : List (Nat × Text) → Text}
  {c : Crossing}

/-- What crosses: the passages that may, each with the values found in it replaced. -/
theorem send_crosses (hredact : cfg.gatewayRedact = true)
    (h : send u cfg provider system passages tiers buildUser = .ok c) :
    passages.length = tiers.length ∧ ∃ bodies,
      List.Forall₂ (Redacted u) ((kept cfg passages tiers).map fun p => p.2.1) bodies ∧
      c.request = ⟨system, buildUser (((kept cfg passages tiers).map Prod.fst).zip bodies)⟩ := by
  unfold send at h
  split at h
  · cases h
  · rename_i hlen
    refine ⟨not_not.mp hlen, ?_⟩
    dsimp only at h
    split at h
    · cases h
    · obtain rfl := Except.ok.inj h
      exact ⟨_, redact_spec u _, rfl⟩

/-- A passage that crosses is one of the request, in its place, and may leave. -/
theorem mem_kept {i : Nat} {text : Text} {tier : Option String} :
    (i, text, tier) ∈ kept cfg passages tiers ↔
      passages[i]? = some text ∧ tiers[i]? = some tier ∧ mayLeave cfg tier = true := by
  unfold kept
  simp only [List.mem_map, List.mem_filter, Prod.mk.injEq]
  constructor
  · rintro ⟨⟨⟨t, r⟩, j⟩, ⟨hmem, hleave⟩, rfl, rfl, rfl⟩
    have hget := List.mem_zipIdx_iff_getElem?.mp hmem
    rw [List.getElem?_zip_eq_some] at hget
    exact ⟨hget.1, hget.2, hleave⟩
  · rintro ⟨hp, ht, hleave⟩
    refine ⟨((text, tier), i), ⟨?_, hleave⟩, rfl, rfl, rfl⟩
    rw [List.mem_zipIdx_iff_getElem?, List.getElem?_zip_eq_some]
    exact ⟨hp, ht⟩

end DataBoundaryGateway

end KnowledgeBase
