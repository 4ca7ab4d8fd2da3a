/-
**The ledger over sessions.**

However accounts are loaded, changed and saved one after the other, all that an address has is its
net deposits, wherever it is kept.  Loading releases into the balance what is unlocked, and neither
that nor saving ever fails as long as the net deposits are an amount.

Main definitions:

* `StakeLedger.Session.run`, `StakeLedger.Session.runAll` — sessions from their beginning to their
  end;
* `StakeLedger.Session.netDeposits` — what sessions paid in for an address, less what they took out;
* `StakeLedger.Store.Kept` — stores in which every entry is in order.

Main results:

* `StakeLedger.Session.run_settled` — one session in a store in order;
* `StakeLedger.Session.kept_runAll` — **every session succeeds and leaves the ledger in order**.
-/
import StakeLedger.Proofs.Entries

set_option autoImplicit false

namespace StakeLedger

open Stateful Account

namespace Session

/-! ### Running sessions -/

/-- A session from its beginning to its end. -/
def run (session : Session) : StoreM Unit := do
  let account ← session.load
  (account.run session.operations).save

/-- What the accepted operations of a session pay in, less what they take out. -/
def paidIn (session : Session) (store : Store) : Int :=
  match (session.load store).1 with
  | .ok account => account.inflow session.operations
  | .error _ => 0

/-- The store after sessions. -/
def runAll (store : Store) (sessions : List Session) : Store :=
  sessions.foldl (fun store session => (session.run store).2) store

/-- What sessions pay in for an address, less what they take out. -/
def netDeposits (address : Address) (store : Store) : List Session → Int
  | [] => 0
  | session :: rest =>
      (if session.address = address then session.paidIn store else 0) +
        netDeposits address (session.run store).2 rest

end Session

/-! ### Whole stores -/

/-- A store without faults that holds of every address an entry in order. -/
structure Store.Kept (store : Store) (revision : Revision) (net : Address → Int) : Prop where
  working : store.failing = none
  entries : ∀ address, ∃ entry, store.parts.Holds address entry ∧ entry.Kept revision (net address)

theorem Store.empty_kept (revision : Revision) : empty.Kept revision fun _ => 0 where
  working := rfl
  entries _ := ⟨.empty, ⟨rfl, rfl, rfl⟩, Entry.empty_kept revision⟩

namespace Session

variable {store : Store} {session : Session} {revision : Revision} {net : Address → Int}

/-- **A session in a store in order succeeds and leaves it in order.** -/
theorem run_settled (kept : store.Kept revision net) (le : revision ≤ session.revision)
    (uniform : session.Uniform)
    (short : ∀ account, (session.load store).1 = .ok account →
      (account.run session.operations).Short)
    (bounded : net session.address ≤ Amount.greatest)
    (bounded_after : net session.address + session.paidIn store ≤ Amount.greatest) :
    ∃ account, session.load store = (.ok account, store) ∧
      ((account.run session.operations).save store).1 = .ok () ∧
        (session.run store).2.Kept session.revision fun address =>
          net address + if session.address = address then session.paidIn store else 0 := by
  obtain ⟨entry, holds, hentry⟩ := kept.entries session.address
  have readable : store.Readable := by
    intro error
    rw [kept.working]
    exact nofun
  have hload := hentry.load_eq_ok bounded readable holds
  have hshort : (entry.closed session).Short := short _ (by rw [hload])
  have hpaid : session.paidIn store =
      (entry.opened session).inflow (.normalize session.revision :: session.operations) := by
    rw [paidIn, hload, inflow_normalize_cons]
  obtain ⟨after, hsave, hsaved⟩ := hentry.save_closed le uniform kept.working
  have hrun : session.run store = (.ok (), after) := by
    rw [run, bind_of_ok hload]
    exact hsave
  refine ⟨_, hload, congrArg Prod.fst hsave, ?_, ?_⟩
  · rw [hrun]
    exact hsaved.failing_eq.trans kept.working
  · intro address
    have haddress := (entry.continues_closed session).address_eq
    rw [hrun]
    by_cases hsame : session.address = address
    · subst hsame
      rw [hpaid] at bounded_after ⊢
      have recordable := hentry.recordable_closed le uniform hshort bounded_after
      have hfound : store.parts.Holds (entry.closed session).address entry := by
        rw [haddress]
        exact holds
      have hown := hsaved.holds_own recordable hfound
      rw [haddress] at hown
      rw [if_pos rfl]
      exact ⟨_, hown, hentry.overlaid le uniform⟩
    · obtain ⟨other, hother, hkept⟩ := kept.entries address
      rw [if_neg hsame, Int.add_zero]
      refine ⟨other, hsaved.holds_other ?_ hother, hkept.later le⟩
      rw [haddress]
      exact fun h => hsame h.symm

end Session

/-! ### Sequences of sessions -/

namespace Session

@[simp] theorem runAll_nil (store : Store) : runAll store [] = store := rfl

@[simp] theorem runAll_cons (store : Store) (session : Session) (rest : List Session) :
    runAll store (session :: rest) = runAll (session.run store).2 rest := rfl

theorem netDeposits_append (address : Address) (store : Store) (before after : List Session) :
    netDeposits address store (before ++ after) =
      netDeposits address store before + netDeposits address (runAll store before) after := by
  induction before generalizing store with
  | nil => exact (Int.zero_add _).symm
  | cons session rest ih =>
      rw [List.cons_append, netDeposits, netDeposits, ih, runAll_cons, Int.add_assoc]

/-- Sessions of other accounts pay in nothing for an address. -/
theorem netDeposits_of_other {address : Address} {store : Store} {sessions : List Session}
    (h : ∀ session ∈ sessions, ¬ session.address = address) :
    netDeposits address store sessions = 0 := by
  induction sessions generalizing store with
  | nil => rfl
  | cons session rest ih =>
      obtain ⟨hfirst, hrest⟩ := List.forall_mem_cons.1 h
      rw [netDeposits, if_neg hfirst, Int.zero_add]
      exact ih hrest

variable {store : Store} {revision : Revision} {net : Address → Int}

/-- Sessions that succeed one after the other leave the store in order. -/
theorem kept_runAll_of (kept : store.Kept revision net) {sessions : List Session}
    (uniform : ∀ session ∈ sessions, session.Uniform)
    (later : ∀ session ∈ sessions, revision ≤ session.revision)
    (ascending : sessions.Pairwise fun earlier later => earlier.revision ≤ later.revision)
    (bounded : ∀ before after, sessions = before ++ after → ∀ address,
      net address + netDeposits address store before ≤ Amount.greatest)
    (short : ∀ before session after account, sessions = before ++ session :: after →
      (session.load (runAll store before)).1 = .ok account →
        (account.run session.operations).Short) :
    ∃ reached, (runAll store sessions).Kept reached
        (fun address => net address + netDeposits address store sessions) ∧
      ∀ bound, revision ≤ bound → (∀ session ∈ sessions, session.revision ≤ bound) →
        reached ≤ bound := by
  induction sessions generalizing store revision net with
  | nil =>
      refine ⟨revision, ?_, fun bound le _ => le⟩
      simp only [netDeposits, Int.add_zero]
      exact kept
  | cons session rest ih =>
      obtain ⟨huniform, hrest⟩ := List.forall_mem_cons.1 uniform
      obtain ⟨hfirst, hascending⟩ := List.pairwise_cons.1 ascending
      have hbefore := bounded [] _ rfl session.address
      have hafter := bounded [session] rest rfl session.address
      simp only [netDeposits, if_true, Int.add_zero] at hbefore hafter
      obtain ⟨_, -, -, hkept⟩ := run_settled kept (later session List.mem_cons_self) huniform
        (fun account => short [] session rest account rfl) hbefore hafter
      obtain ⟨reached, hreached, hbound⟩ := ih hkept hrest hfirst hascending
        (fun before after hsplit address => by
          have := bounded (session :: before) after (by rw [hsplit]; rfl) address
          rwa [netDeposits, ← Int.add_assoc] at this)
        (fun before next after account hsplit =>
          short (session :: before) next after account (by rw [hsplit]; rfl))
      refine ⟨reached, ?_, fun bound _ all => ?_⟩
      · simp only [netDeposits, ← Int.add_assoc]
        exact hreached
      · obtain ⟨hle, hrest⟩ := List.forall_mem_cons.1 all
        exact hbound bound hle hrest

/-- **However often accounts are loaded, changed and saved, no loading and no saving fails, as long
as revisions never fall, lists stay short enough to be recorded and the net deposits of every
address are an amount.  After every session the store holds of every address exactly its net
deposits, the flag of the coin part tells whether the stake part has something pending, and what the
coin part is for never changed.** -/
theorem kept_runAll {sessions : List Session} (uniform : ∀ session ∈ sessions, session.Uniform)
    (ascending : sessions.Pairwise fun earlier later => earlier.revision ≤ later.revision)
    (bounded : ∀ before after, sessions = before ++ after → ∀ address,
      netDeposits address .empty before ≤ Amount.greatest)
    (short : ∀ before session after account, sessions = before ++ session :: after →
      (session.load (runAll .empty before)).1 = .ok account →
        (account.run session.operations).Short) :
    (∀ before session after, sessions = before ++ session :: after →
      ∃ account, session.load (runAll .empty before) = (.ok account, runAll .empty before) ∧
        ((account.run session.operations).save (runAll .empty before)).1 = .ok ()) ∧
    ∀ before after, sessions = before ++ after → ∀ address, ∃ coin part,
      (runAll .empty before).parts.read ⟨address, .coin⟩ CoinPart.ofBytes .empty = .ok coin ∧
        (runAll .empty before).parts.read ⟨address, .stake⟩ StakePart.ofBytes .empty = .ok part ∧
        coin.balance + part.stake + part.pending = netDeposits address .empty before ∧
        (coin.hasFlag CoinPart.hasUnstakeFlag = true ↔ 0 < part.pending) ∧
        coin.fixed = CoinPart.empty.fixed := by
  have hkept : ∀ before after, sessions = before ++ after →
      ∃ reached, (runAll .empty before).Kept reached (fun address =>
        0 + netDeposits address .empty before) ∧
          ∀ bound, (∀ session ∈ before, session.revision ≤ bound) → reached ≤ bound := by
    rintro before after rfl
    obtain ⟨reached, hreached, hbound⟩ := kept_runAll_of (Store.empty_kept ⟨0⟩)
      (fun session hmem => uniform session (List.mem_append_left _ hmem))
      (fun session _ => Nat.zero_le _) (List.pairwise_append.1 ascending).1
      (fun earlier rest hsplit address => by
        rw [Int.zero_add]
        exact bounded earlier (rest ++ after) (by rw [hsplit, List.append_assoc]) address)
      (fun earlier session rest account hsplit =>
        short earlier session (rest ++ after) account (by rw [hsplit, List.append_assoc]; rfl))
    exact ⟨reached, hreached, fun bound => hbound bound (Nat.zero_le _)⟩
  constructor
  · intro before session after hsplit
    obtain ⟨reached, hreached, hbound⟩ := hkept before (session :: after) hsplit
    have hsession : session ∈ sessions := by
      rw [hsplit]
      exact List.mem_append_right _ List.mem_cons_self
    have hle : reached ≤ session.revision := by
      rw [hsplit] at ascending
      exact hbound _ fun earlier hmem =>
        (List.pairwise_append.1 ascending).2.2 earlier hmem session List.mem_cons_self
    have hbefore := bounded before _ hsplit session.address
    have hafter := bounded (before ++ [session]) after (by rw [hsplit, List.append_assoc]; rfl)
      session.address
    rw [netDeposits_append] at hafter
    simp only [netDeposits, if_true, Int.add_zero] at hafter
    obtain ⟨account, hload, hsave, -⟩ := run_settled hreached hle (uniform session hsession)
      (fun account => short before session after account hsplit)
      (by rw [Int.zero_add]; exact hbefore) (by rw [Int.zero_add]; exact hafter)
    exact ⟨account, hload, hsave⟩
  · intro before after hsplit address
    obtain ⟨reached, hreached, -⟩ := hkept before after hsplit
    obtain ⟨entry, holds, hentry⟩ := hreached.entries address
    exact ⟨entry.coin, entry.stake, holds.read_coin, holds.read_stake,
      hentry.worth_eq.trans (Int.zero_add _), hentry.synced, hentry.fixed_eq⟩

/-- A stake is lowered where one pending unstake is known; the coin part alone is loaded and taken
from; and the unstake, by then unlocked, is released where several are known. -/
def threeSessions : List Session :=
  [⟨small.address, [.stake], 5, .staking,
      [.deposit 100, .setStake ⟨5, .staking, 20, 1⟩ 60, .setStake ⟨6, .staking, 4, 1⟩ 40]⟩,
    ⟨small.address, [.coin], 7, .multipleUnstake, [.withdraw 10]⟩,
    ⟨small.address, [.stake, .delegation], 12, .multipleUnstake,
      [.setStake ⟨12, .multipleUnstake, 20, 2⟩ 30]⟩]

theorem uniform_threeSessions : ∀ session ∈ threeSessions, session.Uniform := by
  simp only [threeSessions, List.forall_mem_cons]
  exact ⟨⟨by decide, by decide⟩, ⟨by decide, by decide⟩, ⟨by decide, by decide⟩, nofun⟩

/-- The ways to split the sessions. -/
theorem exists_take_threeSessions {before after : List Session}
    (h : threeSessions = before ++ after) :
    ∃ n ≤ 3, before = threeSessions.take n ∧ after = threeSessions.drop n := by
  refine ⟨before.length, ?_, by rw [h, List.take_left], by rw [h, List.drop_left]⟩
  have hlength : before.length + after.length = 3 := by rw [← List.length_append, ← h]; rfl
  omega

theorem bounded_threeSessions {before after : List Session} (h : threeSessions = before ++ after)
    (address : Address) : netDeposits address .empty before ≤ Amount.greatest := by
  obtain ⟨n, hn, rfl, -⟩ := exists_take_threeSessions h
  by_cases hsame : small.address = address
  · subst hsame
    have hall : ∀ n ≤ 3,
        netDeposits small.address .empty (threeSessions.take n) ≤ Amount.greatest := by
      decide
    exact hall n hn
  · have hother : ∀ session ∈ threeSessions.take n, ¬ session.address = address := by
      intro session hmem
      have hall : ∀ session ∈ threeSessions, session.address = small.address := by decide
      rw [hall session (List.mem_of_mem_take hmem)]
      exact hsame
    rw [netDeposits_of_other hother]
    decide

theorem short_threeSessions {before after : List Session} {session : Session} {account : Account}
    (h : threeSessions = before ++ session :: after)
    (loaded : (session.load (runAll .empty before)).1 = .ok account) :
    (account.run session.operations).Short := by
  obtain ⟨n, hn, rfl, hafter⟩ := exists_take_threeSessions h
  have hall : ∀ n ≤ 3, ∀ session ∈ (threeSessions.drop n).head?, ∀ account ∈
      (session.load (runAll .empty (threeSessions.take n))).1.toOption,
        (account.run session.operations).Short := by
    decide
  refine hall n hn session ?_ account ?_
  · rw [← hafter]
    rfl
  · rw [loaded]
    rfl

theorem kept_threeSessions :
    ∃ coin part,
      (runAll .empty threeSessions).parts.read ⟨small.address, .coin⟩ CoinPart.ofBytes .empty =
        .ok coin ∧
      (runAll .empty threeSessions).parts.read ⟨small.address, .stake⟩ StakePart.ofBytes .empty =
        .ok part ∧
      coin.balance + part.stake + part.pending = 90 ∧
      (coin.hasFlag CoinPart.hasUnstakeFlag = true ↔ 0 < part.pending) ∧
      coin.fixed = CoinPart.empty.fixed := by
  have hpaid : netDeposits small.address .empty threeSessions = 90 := by decide
  obtain ⟨-, hkept⟩ := kept_runAll uniform_threeSessions (by decide)
    (fun before after h => bounded_threeSessions h)
    (fun before session after account h => short_threeSessions h)
  rw [← hpaid]
  exact hkept threeSessions [] rfl small.address

end Session

end StakeLedger
