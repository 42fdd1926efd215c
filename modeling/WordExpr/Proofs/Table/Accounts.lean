import WordExpr.Proofs.Table.Limit

/-!
# What a collector has after failing writes

A `Collector.Call` gives an outcome to a collector, to be hashed or not, and writes its item to a
sink. Calls go on after one that failed.

The state after some calls is not defined by making them: `Collector.account calls` is computed from
the calls alone, and `Sink.filled limit bytes` from the bytes that were offered. One call takes both
from the calls before it to the calls with it, whether the write succeeds or not
(`Collector.perform_account`), so the three accounts cannot come apart in any sequence of calls
(`Collector.performAll_accounts`).
-/

namespace WordExpr

/-! ## sinks -/

/-- what a sink that takes `limit` bytes has of `bytes` -/
def Sink.filled (limit : Nat) (bytes : ByteArray) : Sink :=
  { received := bytes.extract 0 limit, room := some limit }

theorem Sink.filled_empty (limit : Nat) : filled limit .empty = limited limit := by
  have h : (ByteArray.empty).extract 0 limit = .empty := by
    rw [← ByteArray.size_eq_zero_iff, ByteArray.size_extract]
    exact Nat.le_zero.mp (Nat.sub_le_of_le_add (Nat.min_le_right ..))
  unfold filled
  rw [h]
  rfl

/-- A write goes on where those before it ended, or where the sink was full. As there is something
to write, it fails for both reasons: it does not fit, or one before it did not. -/
theorem Sink.write_filled (limit : Nat) (bytes : ByteArray) {item : ByteArray}
    (hitem : 0 < item.size) : (filled limit bytes).write item =
      (filled limit (bytes ++ item), decide ((bytes ++ item).size ≤ limit)) := by
  have hleft : (filled limit bytes).left = some (limit - bytes.size) := by
    show some (limit - (bytes.extract 0 limit).size) = _
    rw [ByteArray.size_extract]
    congr 1
    omega
  have hreceived : bytes.extract 0 limit ++ item.extract 0 (limit - bytes.size) =
      (bytes ++ item).extract 0 limit := by
    rw [ByteArray.extract_append, Nat.zero_sub]
  unfold write
  rw [hleft]
  show ((⟨bytes.extract 0 limit ++ item.extract 0 (limit - bytes.size), some limit⟩ : Sink),
    decide (item.size ≤ limit - bytes.size)) = _
  rw [hreceived, ByteArray.size_append]
  congr 1
  apply decide_eq_decide.mpr
  omega

/-! ## calls -/

theorem Outcome.size_item_pos (o : Outcome) : 0 < o.item.toUTF8.size := by
  show 0 < (o.text ++ ",").toUTF8.size
  have h : (o.text ++ ",").toUTF8.size = o.text.toUTF8.size + 1 := ByteArray.size_append
  omega

theorem Outcome.toUTF8_line_concat (os : List Outcome) (o : Outcome) :
    (line (os ++ [o])).toUTF8 = (line os).toUTF8 ++ o.item.toUTF8 := by
  induction os with
  | nil =>
    show (o.item ++ "").toUTF8 = .empty ++ o.item.toUTF8
    rw [String.append_empty, ByteArray.empty_append]
  | cons o' os ih =>
    show o'.item.toUTF8 ++ (line (os ++ [o])).toUTF8 = o'.item.toUTF8 ++ (line os).toUTF8 ++ _
    rw [ih, ByteArray.append_assoc]

namespace Collector

inductive Call where
  | add (o : Outcome)
  | addUnhashed (o : Outcome)

namespace Call

def outcome : Call → Outcome
  | add o => o
  | addUnhashed o => o

def hashed? : Call → Option Outcome
  | add o => some o
  | addUnhashed _ => none

/-- the items of some calls one after the other -/
def bytes (calls : List Call) : ByteArray := (Outcome.line (calls.map outcome)).toUTF8

/-- the items that are hashed -/
def hashedBytes (calls : List Call) : ByteArray := (Outcome.line (calls.filterMap hashed?)).toUTF8

theorem bytes_concat (calls : List Call) (call : Call) :
    bytes (calls ++ [call]) = bytes calls ++ call.outcome.item.toUTF8 := by
  unfold bytes
  rw [List.map_append]
  exact Outcome.toUTF8_line_concat _ call.outcome

theorem hashedBytes_concat (calls : List Call) (call : Call) : hashedBytes (calls ++ [call]) =
    match call with
    | add o => hashedBytes calls ++ o.item.toUTF8
    | addUnhashed _ => hashedBytes calls := by
  unfold hashedBytes
  rw [List.filterMap_append]
  cases call with
  | add o => exact Outcome.toUTF8_line_concat _ o
  | addUnhashed o => exact congrArg (fun os => (Outcome.line os).toUTF8) (List.append_nil _)

end Call

/-- also tells whether the item was written in full -/
def perform (c : Collector) (s : Sink) : Call → Collector × Sink × Bool
  | .add o => c.add o s
  | .addUnhashed o => c.addUnhashed o s

/-- all calls, whatever became of those before; also which of them succeeded -/
def performAll (c : Collector) (s : Sink) : List Call → Collector × Sink × List Bool
  | [] => (c, s, [])
  | call :: calls =>
    match c.perform s call with
    | (c, s, ok) =>
      match performAll c s calls with
      | (c, s, oks) => (c, s, ok :: oks)

/-! ## accounts -/

/-- what there is to count and to hash in some calls -/
def account (calls : List Call) : Collector where
  hashed := Call.hashedBytes calls
  combinations := calls.length
  undefined := (calls.map Call.outcome).count .undefined

theorem count_undefined_concat (os : List Outcome) (o : Outcome) :
    (os ++ [o]).count .undefined =
      if o = .undefined then os.count .undefined + 1 else os.count .undefined := by
  rw [List.count_append, List.count_singleton]
  by_cases ho : o = .undefined
  · rw [if_pos ho, if_pos (beq_iff_eq.mpr ho)]
  · rw [if_neg ho, if_neg (mt beq_iff_eq.mp ho), Nat.add_zero]

theorem account_concat (calls : List Call) (call : Call) : account (calls ++ [call]) =
    match call with
    | .add o => ((account calls).count o).hash o.item.toUTF8
    | .addUnhashed o => (account calls).count o := by
  have hlength : (calls ++ [call]).length = calls.length + 1 := List.length_append
  have hundefined : ((calls ++ [call]).map Call.outcome).count .undefined =
      ((account calls).count call.outcome).undefined := by
    rw [List.map_append]
    exact count_undefined_concat _ call.outcome
  unfold account
  rw [hlength, hundefined, Call.hashedBytes_concat]
  cases call with
  | add o => rfl
  | addUnhashed o => rfl

/-- one more call, whatever the sink has left -/
theorem perform_account (limit : Nat) (calls : List Call) (call : Call) :
    (account calls).perform (.filled limit (Call.bytes calls)) call =
      (account (calls ++ [call]), .filled limit (Call.bytes (calls ++ [call])),
        decide ((Call.bytes (calls ++ [call])).size ≤ limit)) := by
  have hwrite := Sink.write_filled limit (Call.bytes calls) call.outcome.size_item_pos
  rw [← Call.bytes_concat] at hwrite
  rw [account_concat, ← hwrite]
  cases call with
  | add o => rfl
  | addUnhashed o => rfl

theorem performAll_account (limit : Nat) (done calls : List Call) :
    (account done).performAll (.filled limit (Call.bytes done)) calls =
      (account (done ++ calls), .filled limit (Call.bytes (done ++ calls)),
        (List.range calls.length).map
          (fun k => decide ((Call.bytes (done ++ calls.take (k + 1))).size ≤ limit))) := by
  induction calls generalizing done with
  | nil =>
    rw [List.append_nil]
    rfl
  | cons call calls ih =>
    have hstep (rest : List Call) : done ++ call :: rest = done ++ [call] ++ rest := by
      rw [List.append_assoc, List.singleton_append]
    unfold performAll
    rw [perform_account]
    simp only [ih]
    rw [hstep calls, List.length_cons, List.range_succ_eq_map, List.map_cons, List.map_map]
    congr 3
    apply List.map_congr_left
    intro k _
    show decide _ = decide ((Call.bytes (done ++ call :: calls.take (k + 1))).size ≤ limit)
    rw [hstep (calls.take (k + 1))]

/-- **The accounts stay together.** After any calls into a sink that takes `limit` bytes, failed
ones included, the number of outcomes is that of the calls, the number of undefined ones that of the
undefined ones among them, and the digest that of all items to be hashed, in order. The sink has the
first bytes of all items, as many as it takes, and a call has succeeded exactly if the items up to
its own were not too many bytes. -/
theorem performAll_accounts (limit : Nat) (calls : List Call) :
    ∃ c s oks, performAll {} (.limited limit) calls = (c, s, oks) ∧
      c.finish.combinations = calls.length ∧
      c.finish.undefined = (calls.map Call.outcome).count .undefined ∧
      c.finish.digest = Md5.digest (Call.hashedBytes calls) ∧
      s.received = (Call.bytes calls).extract 0 (min limit (Call.bytes calls).size) ∧
      oks = (List.range calls.length).map
        (fun k => decide ((Call.bytes (calls.take (k + 1))).size ≤ limit)) := by
  have hrun := performAll_account limit [] calls
  have hnone : Sink.filled limit (Call.bytes []) = .limited limit := Sink.filled_empty limit
  rw [hnone, List.nil_append] at hrun
  refine ⟨_, _, _, hrun, rfl, rfl, rfl, ?_, rfl⟩
  show (Call.bytes calls).extract 0 limit = _
  rcases Nat.le_total limit (Call.bytes calls).size with hle | hle
  · rw [Nat.min_eq_left hle]
  · rw [Nat.min_eq_right hle, ByteArray.extract_zero_size, ← Nat.max_eq_left hle,
      ByteArray.extract_zero_max_size]

/-- the comma of the second item does not fit, and so nothing more does -/
example :
    let (_, s, oks) := performAll {} (.limited 4)
      [.add (.value 10), .addUnhashed .undefined, .add (.value 7)]
    s.received = "10,n".toUTF8 ∧ oks = [true, false, false] := by decide +kernel

end Collector

end WordExpr
