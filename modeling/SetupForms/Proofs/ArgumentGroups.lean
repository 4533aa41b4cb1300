import Mathlib.Data.List.Induction
import SetupForms.Command.Arguments
import SetupForms.Proofs.WireBlueprint

/-!
# Groups of arguments

The arguments of the command fall into groups: a file, a switch, or a value flag with its value
(`Arguments.groups`). Each group makes one demand, however it is spelled (`Demand.ofGroup?`), and
what a list of arguments asks for is what its demands say together (`Arguments.ofDemands`), in
whatever order they come. Only the files are kept in their order.

A scan that goes through arguments one by one, and may look at the next one, is awkward to reorder.
So it is first shown to be a fold over groups (`scan_flatten`): the groups of accepted arguments are
whole, and each is met by one step (`Arguments.add`). The fold is then given a meaning that does not
mention order at all: the demands must fit together (`Fitting`), and what they ask for is read off
the list of them (`foldlM_add_eq_ok_iff`). What can be permuted in the list can be permuted in the
arguments.
-/

namespace SetupForms

namespace Text.Utf8

/-- An ASCII byte is a part of its own. -/
theorem parts_cons_of_ascii {lead : UInt8} (h : lead < 0x80) (bs : List UInt8) :
    parts (lead :: bs) = [lead] :: parts bs := by
  have hlead : continuation lead = ⟨0, 0x80, 0xbf⟩ := if_pos (UInt8.lt_trans h (by decide))
  have htaken : (continuation lead).taken bs = 0 := by
    rw [hlead]
    cases bs with
    | nil => rfl
    | cons b bs => rw [Continuation.taken, if_pos (.inl rfl)]
  rw [parts, htaken]
  rfl

/-- An ASCII character is read as it was written, whatever bytes follow. -/
theorem decodeLossy_char {c : Char} (h : c.toNat < 0x80) (bs : List UInt8) :
    decodeLossy (String.utf8EncodeChar c ++ bs) = String.ofList [c] ++ decodeLossy bs := by
  have hbyte : String.utf8EncodeChar c = [UInt8.ofNat c.toNat] := if_pos (Nat.le_of_lt_succ h)
  have hlt : UInt8.ofNat c.toNat < 0x80 := by
    rw [UInt8.lt_iff_toNat_lt, UInt8.toNat_ofNat', Nat.mod_eq_of_lt (by omega)]
    exact h
  have hchar : decode? [UInt8.ofNat c.toNat] = some (String.ofList [c]) := by
    rw [decode?_eq_some_iff, encode_eq_flatMap, String.toList_ofList, List.flatMap_singleton,
      hbyte]
  rw [hbyte, List.singleton_append, decodeLossy, parts_cons_of_ascii hlt, List.map_cons, hchar,
    Option.getD_some, String.join_cons]
  rfl

/-- ASCII text is read as it was written, whatever bytes follow. -/
theorem decodeLossy_append {s : String} (h : ∀ c ∈ s.toList, c.toNat < 0x80) (bs : List UInt8) :
    decodeLossy (encode s ++ bs) = s ++ decodeLossy bs := by
  rw [encode_eq_flatMap]
  suffices hchars : decodeLossy (s.toList.flatMap String.utf8EncodeChar ++ bs) =
      String.ofList s.toList ++ decodeLossy bs by rwa [String.ofList_toList] at hchars
  generalize s.toList = cs at h
  induction cs with
  | nil => simp
  | cons c cs ih =>
    obtain ⟨hc, hcs⟩ := List.forall_mem_cons.mp h
    rw [List.flatMap_cons, List.append_assoc, decodeLossy_char hc, ih hcs, ← String.append_assoc,
      ← String.ofList_append]
    rfl

end Text.Utf8
namespace Command

open Text

/-- What one group of arguments asks for. -/
inductive Demand where
  /-- help -/
  | help
  /-- JSON -/
  | json
  /-- a value for a flag -/
  | value (flag : ValueFlag) (text : String)
  /-- a file -/
  | file (name : String)
  deriving DecidableEq

namespace Demand

/-- The file that is asked for. -/
def file? : Demand → Option String
  | file name => some name
  | _ => none

/-- The value that is given to a flag. -/
def value? (flag : ValueFlag) : Demand → Option String
  | value given text => if given = flag then some text else none
  | _ => none

/-- What an argument asks for alone. -/
def ofArgument? (argument : String) : Option Demand :=
  match Argument.classify argument with
  | .help => some help
  | .json => some json
  | .value flag inline? => inline?.map (value flag)
  | .unknown => none
  | .file => some (file argument)

/-- What a group asks for, if it is a whole group. -/
def ofGroup? : List String → Option Demand
  | [argument] => ofArgument? argument
  | [argument, text] =>
    match Argument.classify argument with
    | .value flag none => some (value flag text)
    | _ => none
  | _ => none

end Demand

namespace Arguments

variable {a b : Arguments} {d : Demand} {ds : List Demand} {flag : ValueFlag}
  {argument text : String}

/-! ## Groups

Cutting into groups is syntactic: it looks at the shape of an argument and never at what has been
given before. The scan refuses more than the cut does, namely a flag without a value and a value
that is given twice, so a list that is cut into whole groups need not be accepted.
-/

/-- The arguments cut into groups: a value flag with the argument behind it unless it has its value
already, and any other argument alone. -/
def groups : List String → List (List String)
  | [] => []
  | argument :: rest =>
    match Argument.classify argument with
    | .value _ none =>
      match rest with
      | [] => [[argument]]
      | text :: rest => [argument, text] :: groups rest
    | _ => [argument] :: groups rest

/-- Whether the last argument is a value flag whose value is still to come. What stands behind other
arguments stands in option position. -/
def awaits : List String → Bool
  | [] => false
  | argument :: rest =>
    match Argument.classify argument with
    | .value _ none =>
      match rest with
      | [] => true
      | _ :: rest => awaits rest
    | _ => awaits rest

/-- What the groups of arguments ask for, leaving out what is no whole group. -/
def demands (arguments : List String) : List Demand :=
  (groups arguments).filterMap Demand.ofGroup?

/-- The arguments with one more demand. -/
def add (a : Arguments) : Demand → Except UsageFault Arguments
  | .help => .ok { a with help := true }
  | .json => .ok { a with json := true }
  | .value flag text => a.give flag text
  | .file name => .ok { a with files := a.files ++ [name] }

/-- The arguments with what one argument asks for alone. -/
def addAlone (a : Arguments) (argument : String) : Except UsageFault Arguments :=
  match Demand.ofArgument? argument with
  | some d => a.add d
  | none => .error (.unknownOption argument)

/-- Cutting loses nothing. -/
theorem flatten_groups (arguments : List String) : (groups arguments).flatten = arguments := by
  fun_induction groups arguments <;> simp [*]

/-- A value flag without a value takes the next argument. -/
theorem scan_pair (h : Argument.classify argument = .value flag none) (rest : List String) :
    a.scan (argument :: text :: rest) = a.give flag text >>= (scan · rest) := by
  rw [scan, h]

/-- Any other argument is read alone. -/
theorem scan_alone (h : ∀ flag, Argument.classify argument ≠ .value flag none)
    (rest : List String) :
    a.scan (argument :: rest) = a.addAlone argument >>= (scan · rest) := by
  rw [scan, addAlone, Demand.ofArgument?]
  cases hc : Argument.classify argument with
  | help | json | unknown | file => rfl
  | value flag inline? =>
    cases inline? with
    | none => exact absurd hc (h flag)
    | some text => rfl

/-- An argument that asks for something alone is read as what it asks for. -/
theorem scan_of_alone (h : Demand.ofArgument? argument = some d) (rest : List String) :
    a.scan (argument :: rest) = a.add d >>= (scan · rest) := by
  have hnot (flag : ValueFlag) : Argument.classify argument ≠ .value flag none := by
    intro hc
    rw [Demand.ofArgument?, hc] at h
    cases h
  rw [scan_alone hnot, addAlone, h]

/-- A scan takes a whole group at once. -/
theorem scan_group {group : List String} (h : Demand.ofGroup? group = some d)
    (rest : List String) : a.scan (group ++ rest) = a.add d >>= (scan · rest) := by
  match group, h with
  | [argument], h => exact scan_of_alone h rest
  | [argument, text], h =>
    rw [Demand.ofGroup?] at h
    split at h
    next flag hc =>
      obtain rfl := Option.some.inj h
      exact scan_pair hc rest
    next => cases h

/-- A scan of whole groups meets their demands one after the other. -/
theorem scan_flatten {gs : List (List String)} (h : ∀ g ∈ gs, (Demand.ofGroup? g).isSome) :
    a.scan gs.flatten = (gs.filterMap Demand.ofGroup?).foldlM add a := by
  induction gs generalizing a with
  | nil => rfl
  | cons g gs ih =>
    obtain ⟨hg, hgs⟩ := List.forall_mem_cons.mp h
    obtain ⟨d, hd⟩ := Option.isSome_iff_exists.mp hg
    rw [List.flatten_cons, scan_group hd, List.filterMap_cons_some hd, List.foldlM_cons]
    exact bind_congr_ok fun b _ => ih hgs

/-- What is scanned to its end has whole groups only. -/
theorem whole_of_scan {arguments : List String} (h : a.scan arguments = .ok b) :
    ∀ group ∈ groups arguments, (Demand.ofGroup? group).isSome := by
  fun_induction groups arguments generalizing a with
  | case1 => exact fun _ hg => absurd hg List.not_mem_nil
  | case2 argument flag hc =>
    rw [scan, hc] at h
    cases h
  | case3 argument flag hc text rest ih =>
    rw [scan, hc] at h
    -- whatever the flag does with its value, the two arguments are a whole group
    obtain ⟨c, -, h⟩ := bind_eq_ok_iff.mp h
    refine List.forall_mem_cons.mpr ⟨?_, ih h⟩
    rw [Demand.ofGroup?, hc]
    rfl
  | case4 argument rest hnot ih =>
    rw [scan_alone hnot, addAlone] at h
    obtain ⟨c, hfirst, h⟩ := bind_eq_ok_iff.mp h
    refine List.forall_mem_cons.mpr ⟨?_, ih h⟩
    rw [Demand.ofGroup?]
    cases hd : Demand.ofArgument? argument with
    | none =>
      rw [hd] at hfirst
      cases hfirst
    | some d => rfl

/-- A scan of two lists is a scan of the first and then of the second, if the first does not end in
front of a value. -/
theorem scan_append {before : List String} (h : awaits before = false) (after : List String) :
    a.scan (before ++ after) = a.scan before >>= (scan · after) := by
  fun_induction awaits before generalizing a with
  | case1 => rfl
  | case2 argument flag hc => cases h
  | case3 argument flag hc text rest ih =>
    rw [List.cons_append, List.cons_append, scan_pair hc, scan_pair hc, bind_assoc]
    exact bind_congr_ok fun b _ => ih h
  | case4 argument rest hnot ih =>
    rw [List.cons_append, scan_alone hnot, scan_alone hnot rest, bind_assoc]
    exact bind_congr_ok fun b _ => ih h

/-! ## What demands say together

Values are what can get into each other's way: a flag takes one value at the most, and that of
`--hob-guid` must be a GUID. `Allows` says this of the values of one flag, so that demands fit
together if the values of every flag are allowed.
-/

/-- The values that are given to a flag. -/
def texts (flag : ValueFlag) (ds : List Demand) : List String := ds.filterMap (Demand.value? flag)

/-- The values that a flag can be given: at most one, and a GUID where one is asked for. -/
def Allows (flag : ValueFlag) : List String → Prop
  | [] => True
  | [text] => flag = .guid → ∃ g, Guid.parse text = .ok g
  | _ => False

/-- Demands that can be met together. -/
def Fitting (ds : List Demand) : Prop := ∀ flag, Allows flag (texts flag ds)

/-- What fitting demands ask for together. -/
def ofDemands (ds : List Demand) : Arguments where
  files := ds.filterMap Demand.file?
  config? := (texts .config ds).head?
  guid? := (texts .guid ds).head?.bind fun text => (Guid.parse text).toOption
  json := decide (.json ∈ ds)
  form? := (texts .form ds).head?
  default? := (texts .default ds).head?
  help := decide (.help ∈ ds)

/-- A value is put behind the values of its flag, and to those of no other. -/
theorem texts_append_value (flag given : ValueFlag) (text : String) :
    texts flag (ds ++ [.value given text]) =
      texts flag ds ++ if given = flag then [text] else [] := by
  rw [texts, List.filterMap_append, texts]
  by_cases h : given = flag <;> simp [Demand.value?, h]

/-- What is no value for a flag leaves the values of the flag as they are. -/
theorem texts_append_of_none (h : d.value? flag = none) :
    texts flag (ds ++ [d]) = texts flag ds := by
  rw [texts, List.filterMap_append, List.filterMap_cons_none h, List.filterMap_nil,
    List.append_nil, texts]

/-- A flag is given at most one value. -/
theorem Allows.length_le {ts : List String} (h : Allows flag ts) : ts.length ≤ 1 := by
  match ts, h with
  | [], _ => exact Nat.zero_le 1
  | [_], _ => exact Nat.le_refl 1

/-- One more value is allowed if there was none, and if it is a GUID where one is asked for. -/
theorem allows_append {ts : List String} :
    Allows flag (ts ++ [text]) ↔ ts = [] ∧ (flag = .guid → ∃ g, Guid.parse text = .ok g) := by
  match ts with
  | [] => exact (and_iff_right rfl).symm
  | [_] | _ :: _ :: _ => exact iff_of_false id nofun

/-- What is no value always fits. -/
theorem fitting_append_of_none (h : ∀ flag, d.value? flag = none) :
    Fitting (ds ++ [d]) ↔ Fitting ds :=
  forall_congr' fun flag => by rw [texts_append_of_none (h flag)]

/-- One more value fits if its flag is new and a GUID is one. -/
theorem fitting_append_value :
    Fitting (ds ++ [.value flag text]) ↔
      Fitting ds ∧ texts flag ds = [] ∧ (flag = .guid → ∃ g, Guid.parse text = .ok g) := by
  constructor
  · intro h
    have hself := h flag
    rw [texts_append_value, if_pos rfl, allows_append] at hself
    refine ⟨fun other => ?_, hself⟩
    by_cases hflag : flag = other
    · rw [← hflag, hself.1]
      trivial
    · have hother := h other
      rwa [texts_append_value, if_neg hflag, List.append_nil] at hother
  · rintro ⟨hds, hself⟩ other
    by_cases hflag : flag = other
    · subst hflag
      rw [texts_append_value, if_pos rfl]
      exact allows_append.mpr hself
    · rw [texts_append_value, if_neg hflag, List.append_nil]
      exact hds other

/-- What may be refused is answered only if it is not. -/
theorem refuse_eq_ok_iff {p : Prop} [Decidable p] {f : UsageFault}
    {x : Except UsageFault Arguments} : (if p then .error f else x) = .ok b ↔ ¬p ∧ x = .ok b := by
  by_cases hp : p
  · rw [if_pos hp]
    exact iff_of_false nofun fun h => h.1 hp
  · rw [if_neg hp, and_iff_right hp]

/-- The arguments with a value for a flag. -/
def withText (a : Arguments) (flag : ValueFlag) (text : String) : Arguments :=
  match flag with
  | .config => { a with config? := some text }
  | .form => { a with form? := some text }
  | .default => { a with default? := some text }
  | .guid => { a with guid? := (Guid.parse text).toOption }

/-- A flag takes a value that it has not been given already and that it can read. -/
theorem give_eq_ok_iff :
    a.give flag text = .ok b ↔
      a.given flag = false ∧ (flag = .guid → ∃ g, Guid.parse text = .ok g) ∧
        b = a.withText flag text := by
  unfold give
  rw [refuse_eq_ok_iff, Bool.not_eq_true]
  refine and_congr_right fun _ => ?_
  cases flag with
  | config | form | default => simp [withText, eq_comm]
  | guid =>
    cases hparse : Guid.parse text with
    | ok g => simp [withText, hparse, eq_comm, Except.toOption]
    | error f => simp

/-- A flag is given in what fitting demands ask for if they give it. -/
theorem given_ofDemands (hds : Fitting ds) :
    (ofDemands ds).given flag = false ↔ texts flag ds = [] := by
  cases flag with
  | config | form | default =>
    rw [given, ofDemands]
    simp
  | guid =>
    have hallows := hds .guid
    rw [given, ofDemands]
    cases ht : texts .guid ds with
    | nil => simp
    | cons text more =>
      rw [ht] at hallows
      cases more with
      | nil =>
        obtain ⟨g, hg⟩ := hallows rfl
        simp [hg, Except.toOption]
      | cons => exact absurd hallows id

/-- A value for a new flag is the value of that flag, and nothing else changes. -/
theorem ofDemands_append_value (hfree : texts flag ds = []) :
    ofDemands (ds ++ [.value flag text]) = (ofDemands ds).withText flag text := by
  cases flag <;>
    simp [ofDemands, withText, texts_append_value, hfree, Demand.file?]

/-- One more demand is met exactly if all fit together, and then as they say together. -/
theorem add_eq_ok_iff :
    Fitting ds ∧ (ofDemands ds).add d = .ok a ↔
      Fitting (ds ++ [d]) ∧ a = ofDemands (ds ++ [d]) := by
  cases d with
  | value flag text =>
    rw [fitting_append_value, add, give_eq_ok_iff]
    constructor
    · -- that a flag is not given yet is seen on the record of arguments here, and on the list of
      -- demands there
      rintro ⟨hds, hgiven, hparse, rfl⟩
      have hfree := (given_ofDemands hds).mp hgiven
      exact ⟨⟨hds, hfree, hparse⟩, (ofDemands_append_value hfree).symm⟩
    · rintro ⟨⟨hds, hfree, hparse⟩, rfl⟩
      exact ⟨hds, (given_ofDemands hds).mpr hfree, hparse, ofDemands_append_value hfree⟩
  | help | json | file name =>
    rw [fitting_append_of_none fun flag => rfl, add, Except.ok.injEq, eq_comm]
    refine and_congr_right fun _ => ?_
    simp [ofDemands, texts, Demand.value?, Demand.file?, List.filterMap_cons]

/-- **Demands are met exactly if they fit together**, and then as they say together. -/
theorem foldlM_add_eq_ok_iff :
    ds.foldlM add {} = .ok a ↔ Fitting ds ∧ a = ofDemands ds := by
  induction ds using List.reverseRecOn generalizing a with
  | nil =>
    have hfit : Fitting [] := fun _ => trivial
    exact ⟨fun h => ⟨hfit, (Except.ok.inj h).symm⟩, fun h => congrArg Except.ok h.2.symm⟩
  | append_singleton ds d ih =>
    rw [List.foldlM_append, bind_eq_ok_iff, ← add_eq_ok_iff]
    constructor
    · rintro ⟨b, hb, hd⟩
      obtain ⟨hds, rfl⟩ := ih.mp hb
      exact ⟨hds, by simpa using hd⟩
    · rintro ⟨hds, hd⟩
      exact ⟨ofDemands ds, ih.mpr ⟨hds, rfl⟩, by simpa using hd⟩

/-! ## Order

A permutation of demands permutes the values of each flag. As fitting demands give a flag one value
at the most, these values do not change at all; the files are the only list that can.
-/

/-- The values of a flag are the same in any order of fitting demands. -/
theorem texts_eq_of_perm {ds' : List Demand} (hds : Fitting ds) (hp : ds'.Perm ds)
    (flag : ValueFlag) : texts flag ds' = texts flag ds := by
  have hperm : (texts flag ds').Perm (texts flag ds) := hp.filterMap _
  have hone := (hds flag).length_le
  cases ht : texts flag ds with
  | nil => exact List.perm_nil.mp (ht ▸ hperm)
  | cons text more =>
    rw [ht] at hperm hone
    obtain rfl : more = [] := List.eq_nil_of_length_eq_zero (by simpa using hone)
    exact List.perm_singleton.mp hperm

/-- Demands that fit together fit in any order. -/
theorem Fitting.of_perm {ds' : List Demand} (hds : Fitting ds) (hp : ds'.Perm ds) :
    Fitting ds' :=
  fun flag => texts_eq_of_perm hds hp flag ▸ hds flag

/-- What fitting demands say together depends on the order of the files alone. -/
theorem ofDemands_eq_of_perm {ds' : List Demand} (hds : Fitting ds) (hp : ds'.Perm ds)
    (hfiles : ds'.filterMap Demand.file? = ds.filterMap Demand.file?) :
    ofDemands ds' = ofDemands ds := by
  simp only [ofDemands, texts_eq_of_perm hds hp, hp.mem_iff, hfiles]

/-- Whether a group is a file. -/
def isFile (group : List String) : Bool := ((Demand.ofGroup? group).bind Demand.file?).isSome

/-- The files that are asked for come from the groups that are files. -/
theorem filterMap_file? (gs : List (List String)) :
    (gs.filterMap Demand.ofGroup?).filterMap Demand.file? =
      (gs.filter isFile).filterMap fun g => (Demand.ofGroup? g).bind Demand.file? := by
  rw [List.filterMap_filterMap, List.filterMap_filter]
  congr 1
  funext g
  cases hfile : (Demand.ofGroup? g).bind Demand.file? <;> simp [isFile, hfile]

/-- What is scanned to its end is whole groups whose demands fit together. -/
theorem scan_eq_ok_iff {arguments : List String} :
    scan {} arguments = .ok a ↔
      (∀ g ∈ groups arguments, (Demand.ofGroup? g).isSome) ∧
        Fitting (demands arguments) ∧ a = ofDemands (demands arguments) := by
  have hscan (h : ∀ g ∈ groups arguments, (Demand.ofGroup? g).isSome) :
      scan {} arguments = (demands arguments).foldlM add {} :=
    (congrArg (scan {}) (flatten_groups arguments)).symm.trans (scan_flatten h)
  constructor
  · intro h
    have hwhole := whole_of_scan h
    exact ⟨hwhole, foldlM_add_eq_ok_iff.mp (hscan hwhole ▸ h)⟩
  · rintro ⟨hwhole, h⟩
    exact (hscan hwhole).trans (foldlM_add_eq_ok_iff.mpr h)

/-- A scan does not depend on the order of the groups, if that of the files is kept. -/
theorem scan_reorder {arguments : List String} {order : List (List String)}
    (h : scan {} arguments = .ok a) (hp : order.Perm (groups arguments))
    (hfiles : order.filter isFile = (groups arguments).filter isFile) :
    scan {} order.flatten = .ok a := by
  obtain ⟨hwhole, hds, rfl⟩ := scan_eq_ok_iff.mp h
  have hperm : (order.filterMap Demand.ofGroup?).Perm (demands arguments) := hp.filterMap _
  have hsame : (order.filterMap Demand.ofGroup?).filterMap Demand.file? =
      (demands arguments).filterMap Demand.file? := by
    rw [demands, filterMap_file?, filterMap_file?, hfiles]
  rw [scan_flatten fun g hg => hwhole g (hp.mem_iff.mp hg)]
  exact foldlM_add_eq_ok_iff.mpr
    ⟨hds.of_perm hperm, (ofDemands_eq_of_perm hds hperm hsame).symm⟩

/-! ## Spelling

A long flag with `=` is cut at the first `=`, and no long flag has one in its name. So everything
behind it is the value, even if it looks like a flag or holds another `=`.
-/

/-- A long flag is cut from what stands behind its `=`, whatever that is. -/
theorem splitInline_joined {front : List Char} (hlong : ['-', '-'].isPrefixOf front)
    (hfront : '=' ∉ front) (behind : List Char) :
    splitInline (front ++ '=' :: behind) = (front, some behind) := by
  have hcut : (front ++ '=' :: behind).takeWhile (· ≠ '=') = front := by
    rw [List.takeWhile_append_of_pos, List.takeWhile_cons_of_neg (by decide), List.append_nil]
    intro c hc
    simpa using ne_of_mem_of_not_mem hc hfront
  rw [splitInline, hcut, if_pos ⟨by simp, hlong⟩, List.drop_length_add_append]
  rfl

/-- The text of a value flag alone waits for its value. -/
theorem classify_text (flag : ValueFlag) : Argument.classify flag.text = .value flag none := by
  cases flag <;> rfl

/-- The text of a value flag with `=` and a value has its value. -/
theorem classify_joined (flag : ValueFlag) (text : String) :
    Argument.classify (flag.text ++ "=" ++ text) = .value flag (some text) := by
  have hlist : (flag.text ++ "=" ++ text).toList = flag.text.toList ++ '=' :: text.toList := by
    simp
  have hlong : ['-', '-'].isPrefixOf flag.text.toList := by cases flag <;> decide
  have hfront : '=' ∉ flag.text.toList := by cases flag <;> decide
  rw [Argument.classify, hlist, splitInline_joined hlong hfront]
  have hback : String.ofList text.toList = text := String.ofList_toList
  cases flag <;> exact congrArg (fun t => Argument.value _ (some t)) hback

/-- A value is given as an argument of its own or behind `=`. -/
theorem scan_joined (flag : ValueFlag) (text : String) (rest : List String) :
    a.scan ((flag.text ++ "=" ++ text) :: rest) = a.scan (flag.text :: text :: rest) := by
  have hjoined : Demand.ofArgument? (flag.text ++ "=" ++ text) = some (.value flag text) := by
    rw [Demand.ofArgument?, classify_joined]
    rfl
  rw [scan_of_alone hjoined, scan_pair (classify_text flag)]
  rfl

/-- Both spellings of a value give the same answer wherever the flag stands in option position. -/
theorem parse_joined {before : List String} (h : awaits before = false) (flag : ValueFlag)
    (text : String) (after : List String) :
    parse (before ++ (flag.text ++ "=" ++ text) :: after) =
      parse (before ++ flag.text :: text :: after) := by
  rw [parse, parse, scan_append h, scan_append h]
  simp only [scan_joined]

/-! ## Acceptance

The last checks look at the finished record. They come after the help flag, which makes them moot.
-/

/-- What the checks let through unless help is asked for. -/
structure Sound (a : Arguments) : Prop where
  /-- there is a file -/
  files : a.files ≠ []
  /-- a form is given only with an option to look up -/
  form : a.form?.isSome → a.default?.isSome
  /-- a lookup has no JSON form -/
  json : a.json → a.default? = none

/-- The checks change nothing, and let through what is sound or asks for help. -/
theorem check_eq_ok_iff : a.check = .ok b ↔ b = a ∧ (a.help = false → a.Sound) := by
  unfold check
  cases a.help with
  | true =>
    rw [if_pos rfl]
    exact ⟨fun h => ⟨(Except.ok.inj h).symm, nofun⟩, fun h => congrArg Except.ok h.1.symm⟩
  | false =>
    rw [if_neg Bool.false_ne_true, refuse_eq_ok_iff, refuse_eq_ok_iff, refuse_eq_ok_iff]
    constructor
    · rintro ⟨hfiles, hform, hjson, h⟩
      refine ⟨(Except.ok.inj h).symm, fun _ => ⟨?_, fun hf => ?_, fun hj => ?_⟩⟩
      · exact fun hnil => hfiles (List.isEmpty_iff.mpr hnil)
      · exact Option.ne_none_iff_isSome.mp fun hd => hform ⟨hf, Option.isNone_iff_eq_none.mpr hd⟩
      · exact Option.not_isSome_iff_eq_none.mp fun hd => hjson ⟨hj, hd⟩
    · rintro ⟨rfl, h⟩
      obtain ⟨hfiles, hform, hjson⟩ := h rfl
      refine ⟨?_, fun hf => ?_, fun hj => ?_, rfl⟩
      · exact fun hempty => hfiles (List.isEmpty_iff.mp hempty)
      · exact Option.ne_none_iff_isSome.mpr (hform hf.1) (Option.isNone_iff_eq_none.mp hf.2)
      · exact Option.not_isSome_iff_eq_none.mpr (hjson hj.1) hj.2

/-- **Neither the spelling of a value nor the order of the groups matters.** A value can be given as
an argument of its own or behind the `=` of its flag, whatever it is and even if it is no text, and
the answer is the same, accepted or not. Accepted arguments are whole groups, and ask for what their
demands say together. They can be put in any order that keeps the files in theirs, and ask for the
same. They give each value flag at most once, and unless they ask for help there is a file, a form
comes with an option to look up, and JSON without one. -/
theorem parse_spelling_order (arguments : List String) :
    (∀ (flag : ValueFlag) before text after, arguments = before ++ flag.text :: text :: after →
        awaits before = false →
        parse (before ++ (flag.text ++ "=" ++ text) :: after) = parse arguments) ∧
      (∀ (flag : ValueFlag) before bytes after,
        arguments = before ++ flag.text :: Utf8.decodeLossy bytes :: after →
        awaits before = false →
        parse (before ++ Utf8.decodeLossy (Utf8.encode (flag.text ++ "=") ++ bytes) :: after) =
          parse arguments) ∧
      (groups arguments).flatten = arguments ∧
      ∀ a, parse arguments = .ok a →
        (∀ group ∈ groups arguments, (Demand.ofGroup? group).isSome) ∧
          a = ofDemands (demands arguments) ∧
          (∀ order : List (List String), order.Perm (groups arguments) →
            order.filter isFile = (groups arguments).filter isFile →
            parse order.flatten = .ok a) ∧
          (∀ flag, (texts flag (demands arguments)).length ≤ 1) ∧
          (a.help = false → a.Sound) := by
  refine ⟨?_, ?_, flatten_groups arguments, fun a h => ?_⟩
  · rintro flag before text after rfl hbefore
    exact parse_joined hbefore flag text after
  · rintro flag before bytes after rfl hbefore
    have hascii : (flag.text ++ "=").toList.all (·.toNat < 0x80) := by cases flag <;> rfl
    rw [Utf8.decodeLossy_append fun c hc => of_decide_eq_true (List.all_eq_true.mp hascii c hc)]
    exact parse_joined hbefore flag (Utf8.decodeLossy bytes) after
  · obtain ⟨b, hscan, hcheck⟩ := bind_eq_ok_iff.mp h
    obtain ⟨rfl, hsound⟩ := check_eq_ok_iff.mp hcheck
    obtain ⟨hwhole, hds, ha⟩ := scan_eq_ok_iff.mp hscan
    refine ⟨hwhole, ha, fun order hp hfiles => ?_, fun flag => (hds flag).length_le, hsound⟩
    rw [parse, scan_reorder hscan hp hfiles]
    exact hcheck

/-- A value that looks like a flag, and a form whose value holds a `=`: both are accepted in either
spelling and in another order. -/
theorem parse_spelling_order_sample :
    parse ["a.bin", "--default=--json", "--form=x=y", "b.bin"] =
        parse ["a.bin", "--default", "--json", "--form=x=y", "b.bin"] ∧
      parse ["--form=x=y", "a.bin", "b.bin", "--default", "--json"] =
        .ok { files := ["a.bin", "b.bin"], form? := some "x=y", default? := some "--json" } := by
  obtain ⟨htext, -, -, haccept⟩ :=
    parse_spelling_order ["a.bin", "--default", "--json", "--form=x=y", "b.bin"]
  have hgroups : groups ["a.bin", "--default", "--json", "--form=x=y", "b.bin"] =
      [["a.bin"], ["--default", "--json"], ["--form=x=y"], ["b.bin"]] := rfl
  have hparse : parse ["a.bin", "--default", "--json", "--form=x=y", "b.bin"] =
      .ok { files := ["a.bin", "b.bin"], form? := some "x=y", default? := some "--json" } := rfl
  obtain ⟨-, -, horder, -⟩ := haccept _ hparse
  refine ⟨htext .default ["a.bin"] "--json" ["--form=x=y", "b.bin"] rfl rfl, ?_⟩
  refine horder [["--form=x=y"], ["a.bin"], ["b.bin"], ["--default", "--json"]] ?_ ?_
  · rw [hgroups]
    decide
  · rw [hgroups]
    rfl

end Arguments

end Command

end SetupForms
