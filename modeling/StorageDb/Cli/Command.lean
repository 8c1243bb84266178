import Mathlib.Tactic
import StorageDb.Lib.Words
import StorageDb.Lib.Bytes

namespace StorageDb
open Words

abbrev Text := List Char

-- The code points with the White_Space property, which str::trim removes.
def isWhitespace (c : Char) : Bool :=
  (9 ≤ c.toNat && c.toNat ≤ 13) || c.toNat == 0x20 || c.toNat == 0x85 || c.toNat == 0xA0 ||
    c.toNat == 0x1680 || (0x2000 ≤ c.toNat && c.toNat ≤ 0x200A) || c.toNat == 0x2028 ||
    c.toNat == 0x2029 || c.toNat == 0x202F || c.toNat == 0x205F || c.toNat == 0x3000

def asBytes (s : Text) : Bytes := s.flatMap String.utf8EncodeChar

def fromUtf8 (b : Bytes) : Option Text := b.toByteArray.utf8Decode?.map Array.toList

theorem fromUtf8_asBytes (s : Text) : fromUtf8 (asBytes s) = some s := by
  have h : (asBytes s).toByteArray.utf8Decode? = some s.toArray := List.utf8Decode?_utf8Encode
  rw [fromUtf8,h,Option.map_some]

inductive Keyword where
  | put
  | get
  | del
  | scan
  | range
  | stats
  | bench
  | quit
  deriving DecidableEq, Repr

namespace Keyword

def words : List (Text × Keyword) :=
  [("put".toList,.put),("get".toList,.get),("del".toList,.del),("scan".toList,.scan),
    ("range".toList,.range),("stats".toList,.stats),("bench".toList,.bench),("quit".toList,.quit),
    ("exit".toList,.quit),("q".toList,.quit)]

def ofWord (w : Text) : Option Keyword := (words.find? (fun x => x.1 = w)).map Prod.snd

theorem ofWord_iff (kw : Keyword) (word : Text) (hword : ofWord word = some kw)
    (huniq : ∀ x ∈ words, x.2 = kw → x.1 = word) (w : Text) : ofWord w = some kw ↔ w = word := by
  constructor
  · intro h
    obtain ⟨x,hx,rfl⟩ := Option.map_eq_some_iff.mp h
    have hfound := List.find?_some hx
    have hw : x.1 = w := of_decide_eq_true hfound
    rw [← hw]
    exact huniq x (List.mem_of_find?_eq_some hx) rfl
  · rintro rfl
    exact hword

def usage : Keyword → String
  | .put => "Usage: put <key> <value>"
  | .get => "Usage: get <key>"
  | .del => "Usage: del <key>"
  | .range => "Usage: range <start> <end>"
  | _ => ""

end Keyword

inductive Command where
  | blank
  | put (key value : Text)
  | get (key : Text)
  | del (key : Text)
  | scan
  | range (start stop : Text)
  | stats
  | bench (n : Nat)
  | quit
  | usage (k : Keyword)
  | unknown (word : Text)
  deriving DecidableEq, Repr

-- str::parse::<usize>: digits, with a plus sign before them or without.
def parseUsize (s : Text) : Option Nat :=
  let digits := if s.head? = some '+' then s.tail else s
  if digits ≠ [] ∧ digits.all Char.isDigit then
    let n := digits.foldl (fun n c => 10 * n + (c.toNat - 48)) 0
    if n < 2 ^ 64 then some n else none
  else none

namespace Command

def ofKeyword : Keyword → List Text → Command
  | .put, [k,v] => .put k v
  | .put, _ => .usage .put
  | .get, k :: _ => .get k
  | .get, [] => .usage .get
  | .del, k :: _ => .del k
  | .del, [] => .usage .del
  | .scan, _ => .scan
  | .range, [a,b] => .range a b
  | .range, _ => .usage .range
  | .stats, _ => .stats
  | .bench, args => .bench ((args.head?.bind parseUsize).getD 10000)
  | .quit, _ => .quit

def ofParts : List Text → Command
  | [] => .blank
  | w :: args =>
    if w = [] then .blank
    else match Keyword.ofWord w with
      | some k => ofKeyword k args
      | none => .unknown w

def parse (line : Text) : Command := ofParts (splitn ' ' 3 (trim isWhitespace line))

variable {line word k v : Text} {parts args : List Text} {kw : Keyword} {c : Command}

theorem ofKeyword_two (kw : Keyword) (args : List Text) :
    (ofKeyword kw args = .put k v ↔ kw = .put ∧ args = [k,v]) ∧
      (ofKeyword kw args = .range k v ↔ kw = .range ∧ args = [k,v]) := by
  unfold ofKeyword
  split <;> simp_all

theorem ofKeyword_one (kw : Keyword) (args : List Text) :
    (ofKeyword kw args = .get k ↔ kw = .get ∧ args.head? = some k) ∧
      (ofKeyword kw args = .del k ↔ kw = .del ∧ args.head? = some k) := by
  unfold ofKeyword
  split <;> simp_all

theorem ofParts_iff (hb : c ≠ .blank) (hu : ∀ w, c ≠ .unknown w) : ofParts parts = c ↔
    ∃ w args kw, parts = w :: args ∧ Keyword.ofWord w = some kw ∧ ofKeyword kw args = c := by
  constructor
  · intro h
    cases parts with
    | nil => exact absurd h.symm hb
    | cons w args =>
      rw [ofParts] at h
      split_ifs at h
      · exact absurd h.symm hb
      · cases hw : Keyword.ofWord w with
        | none =>
          rw [hw] at h
          exact absurd h.symm (hu w)
        | some kw =>
          rw [hw] at h
          exact ⟨w,args,kw,rfl,hw,h⟩
  · rintro ⟨w,args,kw,rfl,hw,rfl⟩
    have hne : w ≠ [] := by
      rintro rfl
      cases hw
    rw [ofParts,if_neg hne,hw]

section families

variable (hword : ∀ w, Keyword.ofWord w = some kw ↔ w = word) (hsep : ' ' ∉ word)
include hword hsep

-- put and range: two arguments, the second one up to the end of the line.
theorem parse_two_iff (hc : ∀ kw' args, ofKeyword kw' args = c ↔ kw' = kw ∧ args = [k,v])
    (hb : c ≠ .blank) (hu : ∀ w, c ≠ .unknown w) : parse line = c ↔
      ' ' ∉ k ∧ trim isWhitespace line = word ++ ' ' :: (k ++ ' ' :: v) := by
  have hparts (parts : List Text) : ofParts parts = c ↔ parts = [word,k,v] := by
    rw [ofParts_iff hb hu]
    constructor
    · rintro ⟨w,args,kw',rfl,hw,h⟩
      obtain ⟨rfl,rfl⟩ := (hc kw' args).mp h
      rw [(hword w).mp hw]
    · rintro rfl
      exact ⟨word,[k,v],kw,rfl,(hword word).mpr rfl,(hc kw _).mpr ⟨rfl,rfl⟩⟩
  rw [parse,hparts,splitn_eq_three_iff]
  exact ⟨fun h => h.2,fun h => ⟨hsep,h⟩⟩

-- get and del: one argument; what follows it is ignored.
theorem parse_one_iff (hc : ∀ kw' args, ofKeyword kw' args = c ↔ kw' = kw ∧ args.head? = some k)
    (hb : c ≠ .blank) (hu : ∀ w, c ≠ .unknown w) : parse line = c ↔ ' ' ∉ k ∧ ∃ tail,
      (tail = [] ∨ tail.head? = some ' ') ∧
        trim isWhitespace line = word ++ ' ' :: (k ++ tail) := by
  have hparts (parts : List Text) : ofParts parts = c ↔ ∃ args, parts = word :: k :: args := by
    rw [ofParts_iff hb hu]
    constructor
    · rintro ⟨w,args,kw',rfl,hw,h⟩
      obtain ⟨rfl,hargs⟩ := (hc kw' args).mp h
      obtain ⟨rest,rfl⟩ := List.head?_eq_some_iff.mp hargs
      exact ⟨rest,by rw [(hword w).mp hw]⟩
    · rintro ⟨args,rfl⟩
      exact ⟨word,k :: args,kw,rfl,(hword word).mpr rfl,(hc kw _).mpr ⟨rfl,rfl⟩⟩
  rw [parse,hparts]
  constructor
  · rintro ⟨args,h⟩
    rcases splitn_three ' ' (trim isWhitespace line) with ⟨-,h1⟩ | ⟨a,b,-,hb,hs,h2⟩ |
      ⟨a,b,rest,-,hb,hs,h3⟩
    · rw [h] at h1
      cases h1
    · rw [h] at h2
      cases h2
      exact ⟨hb,[],Or.inl rfl,by rw [hs,List.append_nil]⟩
    · rw [h] at h3
      cases h3
      exact ⟨hb,' ' :: rest,Or.inr rfl,hs⟩
  · rintro ⟨hk,tail,rfl | htail,hs⟩
    · rw [List.append_nil] at hs
      exact ⟨[],splitn_eq_two_iff.mpr ⟨hsep,hk,hs⟩⟩
    · obtain ⟨rest,rfl⟩ := List.head?_eq_some_iff.mp htail
      exact ⟨[rest],splitn_eq_three_iff.mpr ⟨hsep,hk,hs⟩⟩

end families

theorem parse_put_iff (line k v : Text) : parse line = .put k v ↔
    ' ' ∉ k ∧ trim isWhitespace line = "put ".toList ++ (k ++ ' ' :: v) := by
  exact parse_two_iff (Keyword.ofWord_iff .put "put".toList (by decide) (by decide)) (by decide)
    (fun kw args => (ofKeyword_two kw args).1) (by simp) (by simp)

theorem parse_get_iff (line k : Text) : parse line = .get k ↔ ' ' ∉ k ∧ ∃ tail,
    (tail = [] ∨ tail.head? = some ' ') ∧
      trim isWhitespace line = "get ".toList ++ (k ++ tail) := by
  exact parse_one_iff (Keyword.ofWord_iff .get "get".toList (by decide) (by decide)) (by decide)
    (fun kw args => (ofKeyword_one kw args).1) (by simp) (by simp)

def putLine (k v : Text) : Text := "put ".toList ++ (k ++ ' ' :: v)

def getLine (k : Text) : Text := "get ".toList ++ k

def EndsLine (w : Text) : Prop := w ≠ [] ∧ ∀ c, w.getLast? = some c → isWhitespace c = false

theorem EndsLine.trim_append {w : Text} (h : EndsLine w) {s : Text} (hne : s ≠ [])
    (hs : ∀ c, s.head? = some c → isWhitespace c = false) :
    trim isWhitespace (s ++ w) = s ++ w := by
  refine trim_eq_self ?_ (fun c hc => h.2 c ?_)
  · rwa [List.head?_append_of_ne_nil _ hne]
  · rwa [List.getLast?_append_of_ne_nil _ h.1] at hc

theorem parse_putLine (hk : ' ' ∉ k) (hv : EndsLine v) : parse (putLine k v) = .put k v := by
  have hsplit : putLine k v = ("put ".toList ++ (k ++ [' '])) ++ v := by simp [putLine]
  refine (parse_put_iff _ k v).mpr ⟨hk,?_⟩
  rw [hsplit,hv.trim_append (by simp) (fun c hc => by cases hc; decide),← hsplit]
  rfl

theorem parse_getLine (hk : ' ' ∉ k) (he : EndsLine k) : parse (getLine k) = .get k := by
  refine (parse_get_iff _ k).mpr ⟨hk,[],Or.inl rfl,?_⟩
  rw [getLine,he.trim_append (by simp) (fun c hc => by cases hc; decide),List.append_nil]

theorem parse_exact (line k v : Text) :
    (parse line = .put k v ↔
      ' ' ∉ k ∧ trim isWhitespace line = "put ".toList ++ (k ++ ' ' :: v)) ∧
    (parse line = .range k v ↔
      ' ' ∉ k ∧ trim isWhitespace line = "range ".toList ++ (k ++ ' ' :: v)) ∧
    (parse line = .get k ↔ ' ' ∉ k ∧ ∃ tail, (tail = [] ∨ tail.head? = some ' ') ∧
      trim isWhitespace line = "get ".toList ++ (k ++ tail)) ∧
    (parse line = .del k ↔ ' ' ∉ k ∧ ∃ tail, (tail = [] ∨ tail.head? = some ' ') ∧
      trim isWhitespace line = "del ".toList ++ (k ++ tail)) := by
  refine ⟨parse_put_iff line k v,?_,parse_get_iff line k,?_⟩
  · exact parse_two_iff (Keyword.ofWord_iff .range "range".toList (by decide) (by decide))
      (by decide)
      (fun kw args => (ofKeyword_two kw args).2) (by simp) (by simp)
  · exact parse_one_iff (Keyword.ofWord_iff .del "del".toList (by decide) (by decide)) (by decide)
      (fun kw args => (ofKeyword_one kw args).2) (by simp) (by simp)

end Command

end StorageDb
