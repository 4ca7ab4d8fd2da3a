/-
**Kinds of messages.**

Every message carries the number of its kind.  Ten kinds are requested and answered; the other two
are notifications, which the calculator sends on its own.

Main definitions:

* `StakeLedger.MessageKind`, with `StakeLedger.MessageKind.tag` and
  `StakeLedger.MessageKind.ofTag?`.

Main results:

* `StakeLedger.MessageKind.ofTag?_eq_some_iff` — a number names a kind exactly if it is its tag.
-/
set_option autoImplicit false

namespace StakeLedger

/-- The kind of a message. -/
inductive MessageKind
  | version
  | claim
  | query
  | calculate
  | commitBlock
  | commitClaim
  | queryCalculateStatus
  | queryCalculateResult
  | rollback
  | init
  | ready
  | calculateDone
  deriving DecidableEq, Repr

namespace MessageKind

/-- All kinds. -/
def all : List MessageKind :=
  [.version, .claim, .query, .calculate, .commitBlock, .commitClaim, .queryCalculateStatus,
    .queryCalculateResult, .rollback, .init, .ready, .calculateDone]

/-- The number of a kind. -/
def tag : MessageKind → Nat
  | .version => 0
  | .claim => 1
  | .query => 2
  | .calculate => 3
  | .commitBlock => 4
  | .commitClaim => 5
  | .queryCalculateStatus => 6
  | .queryCalculateResult => 7
  | .rollback => 8
  | .init => 9
  | .ready => 100
  | .calculateDone => 101

/-- The kind with a given number. -/
def ofTag? (tag : Nat) : Option MessageKind :=
  all.find? fun kind => kind.tag == tag

/-- The name of a kind. -/
def name : MessageKind → String
  | .version => "VERSION"
  | .claim => "CLAIM"
  | .query => "QUERY"
  | .calculate => "CALCULATE"
  | .commitBlock => "COMMIT_BLOCK"
  | .commitClaim => "COMMIT_CLAIM"
  | .queryCalculateStatus => "QUERY_CALCULATE_STATUS"
  | .queryCalculateResult => "QUERY_CALCULATE_RESULT"
  | .rollback => "ROLLBACK"
  | .init => "INIT"
  | .ready => "READY"
  | .calculateDone => "CALCULATE_DONE"

/-- Whether the calculator sends the kind on its own. -/
def isNotification : MessageKind → Bool
  | .ready => true
  | .calculateDone => true
  | _ => false

@[simp] theorem ofTag?_tag (kind : MessageKind) : ofTag? kind.tag = some kind := by
  cases kind <;> rfl

/-- A number names a kind exactly if it is its tag. -/
theorem ofTag?_eq_some_iff {tag : Nat} {kind : MessageKind} :
    ofTag? tag = some kind ↔ tag = kind.tag := by
  constructor
  · intro h
    have found := List.find?_some h
    exact (beq_iff_eq.mp found).symm
  · rintro rfl
    exact ofTag?_tag kind

end MessageKind

end StakeLedger
