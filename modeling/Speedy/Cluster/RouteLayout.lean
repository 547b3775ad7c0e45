import Speedy.Cluster.Route
import Speedy.Lib.FormatLayout
import Mathlib.Algebra.GroupWithZero.Nat

/-! # The layout of the routing table

The text of the table is cut into segments whose weight is one for every brace and one for
every port, so that each server has two of it. -/
namespace Speedy.Cluster
open Speedy.Lib Speedy.Chunkmaster

/-! ## The table in segments -/

def valueSeg : Json → Seg
  | .string s => .str s
  | v => .text v.encode

def memberSegs (m : List Char × Json) (segs : List Seg) : List Seg :=
  .text [','] :: .key m.1 :: valueSeg m.2 :: segs

def dataDirFields (c : MetadataChunkserver) : List (List Char × Json) :=
  if c.dataDir = "" then [] else [("DataDir".toList, .string c.dataDir.toList)]

def serverSegs (c : MetadataChunkserver) (segs : List Seg) : List Seg :=
  .text ['{'] :: .key "GroupId".toList :: valueSeg (numberJson c.groupId.toNat) ::
    memberSegs ("Ip".toList, .string c.ip.toList) (memberSegs ("Port".toList, numberJson c.port)
      ((marshalCounters c).foldr memberSegs
        ((dataDirFields c).foldr memberSegs (.text ['}'] :: segs))))

def nextServerSegs (c : MetadataChunkserver) (segs : List Seg) : List Seg :=
  .text [','] :: serverSegs c segs

def serversSegs (segs : List Seg) : List MetadataChunkserver → List Seg
  | [] => segs
  | c :: cs => serverSegs c (cs.foldr nextServerSegs segs)

def groupSegs (e : String × List MetadataChunkserver) (segs : List Seg) : List Seg :=
  .key e.1.toList :: .text ['['] :: serversSegs segs e.2

/-- From the end of a group on. -/
def groupsSegs : List (String × List MetadataChunkserver) → List Seg
  | [] => [.text [']', '}']]
  | e :: es => .text [']', ','] :: groupSegs e (groupsSegs es)

/-- A table that is not empty. -/
def tableSegs (e : String × List MetadataChunkserver)
    (es : List (String × List MetadataChunkserver)) : List Seg :=
  .text ['{'] :: groupSegs e (groupsSegs es)

section Render

theorem render_valueSeg (v : Json) (segs : List Seg) :
    render (valueSeg v :: segs) = v.encode ++ render segs := by
  cases v with
  | string s => simp [valueSeg, render, Json.encode]
  | _ => rfl

theorem render_memberSegs (m : List Char × Json) (segs : List Seg) :
    render (memberSegs m segs) = ',' :: (encodeMember m ++ render segs) := by
  obtain ⟨key, v⟩ := m
  simp only [memberSegs, render, render_valueSeg, encodeMember]
  simp

theorem render_members (ms : List (List Char × Json)) (segs : List Seg) :
    render (ms.foldr memberSegs (.text ['}'] :: segs)) = encodeMembers ms ++ render segs := by
  induction ms with
  | nil => simp [render, encodeMembers]
  | cons m ms ih =>
    rw [List.foldr_cons, render_memberSegs, ih]
    simp [encodeMembers]

theorem render_serverSegs (c : MetadataChunkserver) (segs : List Seg) :
    render (serverSegs c segs) = (marshalChunkserver c).encode ++ render segs := by
  have hfirst : render (serverSegs c segs) =
      '{' :: (encodeMember ("GroupId".toList, numberJson c.groupId.toNat) ++
        render ((("Ip".toList, .string c.ip.toList) :: ("Port".toList, numberJson c.port) ::
          marshalCounters c ++ dataDirFields c).foldr memberSegs (.text ['}'] :: segs))) := by
    rw [List.foldr_append]
    simp only [serverSegs, render, render_valueSeg, encodeMember]
    simp
  rw [hfirst, render_members, ← List.append_assoc, ← List.cons_append]
  rfl

theorem render_nextServers (cs : List MetadataChunkserver) {segs : List Seg} {X : List Char}
    (h : render segs = ']' :: X) :
    render (cs.foldr nextServerSegs segs) = encodeElements (cs.map marshalChunkserver) ++ X := by
  induction cs with
  | nil => simpa [encodeElements] using h
  | cons c cs ih =>
    rw [List.foldr_cons, nextServerSegs, render, render_serverSegs, ih]
    simp [encodeElements]

theorem render_groupSegs (e : String × List MetadataChunkserver) {segs : List Seg}
    {X : List Char} (h : render segs = ']' :: X) :
    render (groupSegs e segs) =
      encodeMember (e.1.toList, .array (e.2.map marshalChunkserver)) ++ X := by
  obtain ⟨id, servers⟩ := e
  cases servers with
  | nil =>
    simp only [groupSegs, serversSegs, render, h, encodeMember, List.map_nil, Json.encode]
    simp
  | cons c cs =>
    simp only [groupSegs, serversSegs, render, render_serverSegs, render_nextServers cs h,
      encodeMember, List.map_cons, Json.encode]
    simp

theorem render_groupsSegs (es : List (String × List MetadataChunkserver)) :
    render (groupsSegs es) = ']' :: encodeMembers (es.map fun e =>
      (e.1.toList, .array (e.2.map marshalChunkserver))) := by
  induction es with
  | nil => rfl
  | cons e es ih =>
    rw [groupsSegs, render, render_groupSegs e ih]
    rfl

theorem render_tableSegs (e : String × List MetadataChunkserver)
    (es : List (String × List MetadataChunkserver)) :
    render (tableSegs e es) = (Json.object ((e :: es).map fun e =>
      (e.1.toList, .array (e.2.map marshalChunkserver)))).encode := by
  rw [tableSegs, render, render_groupSegs e (render_groupsSegs es), List.map_cons, Json.encode]
  rfl

end Render

/-! ## Its layout and its weight -/

def portWeight (key : List Char) : Nat := if fieldOf key = some .port then 1 else 0

section Layout
variable {segs : List Seg} {c : MetadataChunkserver}

theorem layout_comma (h : Layout portWeight segs) : Layout portWeight (.text [','] :: segs) :=
  .text (by decide) (by decide) (by decide) h

theorem layout_number (key : List Char) (hpercent : '%' ∉ key) (hbracket : ']' ∉ key) (n : Int)
    (h : Layout portWeight segs) :
    Layout portWeight (.key key :: valueSeg (numberJson n) :: segs) :=
  .key hpercent hbracket <| .text (not_mem_toString rfl (by decide) n)
    (not_mem_toString rfl (by decide) n) (not_mem_toString rfl (by decide) n) h

theorem layout_string (key s : List Char) {x : Char} (hpercent : '%' ∉ key) (hbracket : ']' ∉ key)
    (hx : x = ',' ∨ x = '}') (hfenced : Fenced portWeight (.text [x] :: segs))
    (h : Layout portWeight (.text [x] :: segs)) :
    Layout portWeight (memberSegs (key, .string s) (.text [x] :: segs)) :=
  layout_comma (.key hpercent hbracket (.str hx hfenced h))

/-- What every number between `Port` and `DataDir` keeps, all of them keep. -/
theorem foldr_counters {P : List Seg → Prop}
    (hstep : ∀ name ∈ counterNames, ∀ n segs, P segs →
      P (memberSegs (name.toList, numberJson n) segs))
    (h : P segs) : P ((marshalCounters c).foldr memberSegs segs) := by
  have hall : ∀ m ∈ marshalCounters c, ∃ name ∈ counterNames, ∃ n,
      m = (name.toList, numberJson n) := fun m hm => mem_marshalCounters hm
  generalize marshalCounters c = ms at hall
  induction ms with
  | nil => exact h
  | cons m ms ih =>
    obtain ⟨⟨name, hname, n, rfl⟩, hms⟩ := List.forall_mem_cons.mp hall
    exact hstep name hname n _ (ih hms)

theorem layout_counters (h : Layout portWeight segs) :
    Layout portWeight ((marshalCounters c).foldr memberSegs segs) := by
  have hnames : ∀ name ∈ counterNames, '%' ∉ name.toList ∧ ']' ∉ name.toList := by decide
  refine foldr_counters (fun name hname n segs h => ?_) h
  exact layout_comma (layout_number _ (hnames name hname).1 (hnames name hname).2 n h)

theorem layout_dataDir (hfenced : Fenced portWeight segs) (h : Layout portWeight segs) :
    Layout portWeight ((dataDirFields c).foldr memberSegs (.text ['}'] :: segs)) := by
  have hclose : Layout portWeight (.text ['}'] :: segs) :=
    .text (by decide) (by decide) (by decide) h
  unfold dataDirFields
  split
  · exact hclose
  · exact layout_string "DataDir".toList _ (by decide) (by decide) (.inr rfl) (.inr hfenced) hclose

theorem layout_serverSegs (hfenced : Fenced portWeight segs) (h : Layout portWeight segs) :
    Layout portWeight (serverSegs c segs) := by
  have hport := layout_number "Port".toList (by decide) (by decide) c.port
    (layout_counters (c := c) (layout_dataDir (c := c) hfenced h))
  have hfence : ∀ segs, Fenced portWeight (.text [','] :: .key "Port".toList :: segs) :=
    fun _ => .inr (.inl Nat.one_pos)
  have hip := layout_string "Ip".toList c.ip.toList (by decide) (by decide) (.inl rfl) (hfence _)
    (layout_comma hport)
  exact .text (by decide) (by decide) (by decide) (layout_number _ (by decide) (by decide) _ hip)

theorem fenced_nextServers (cs : List MetadataChunkserver) (h : Fenced portWeight segs) :
    Fenced portWeight (cs.foldr nextServerSegs segs) := by
  cases cs with
  | nil => exact h
  | cons c cs => exact .inr (.inl List.mem_cons_self)

theorem layout_nextServers (cs : List MetadataChunkserver) (hfenced : Fenced portWeight segs)
    (h : Layout portWeight segs) : Layout portWeight (cs.foldr nextServerSegs segs) := by
  induction cs with
  | nil => exact h
  | cons c cs ih => exact layout_comma (layout_serverSegs (fenced_nextServers cs hfenced) ih)

theorem layout_serversSegs (servers : List MetadataChunkserver) (hfenced : Fenced portWeight segs)
    (h : Layout portWeight segs) : Layout portWeight (serversSegs segs servers) := by
  cases servers with
  | nil => exact h
  | cons c cs =>
    exact layout_serverSegs (fenced_nextServers cs hfenced) (layout_nextServers cs hfenced h)

theorem fenced_serversSegs (servers : List MetadataChunkserver) (h : Fenced portWeight segs) :
    Fenced portWeight (serversSegs segs servers) := by
  cases servers with
  | nil => exact h
  | cons c cs => exact .inl List.mem_cons_self

theorem fenced_groupsSegs (es : List (String × List MetadataChunkserver)) :
    Fenced portWeight (groupsSegs es) := by
  induction es with
  | nil => exact .inr trivial
  | cons e es ih => exact .inr (.inr (.inr (fenced_serversSegs e.2 ih)))

/-- The key of a group is a number. -/
def IsGroup (e : String × List MetadataChunkserver) : Prop := ∃ n : Nat, e.1 = toString n

theorem IsGroup.digit {e : String × List MetadataChunkserver} (he : IsGroup e) :
    ∃ d cs, e.1.toList = d :: cs ∧ d.isDigit = true := by
  obtain ⟨n, hn⟩ := he
  rw [hn]
  exact repr_cons n

theorem layout_groupSegs {e : String × List MetadataChunkserver} (he : IsGroup e)
    (hfenced : Fenced portWeight segs) (h : Layout portWeight segs) :
    Layout portWeight (groupSegs e segs) := by
  obtain ⟨n, hn⟩ := he
  have hne : ∀ {x : Char}, x.isDigit = false → x ∉ e.1.toList := by
    intro x hx
    rw [hn]
    exact not_mem_repr hx n
  refine .key (hne rfl) (hne rfl) (.text (by decide) (by decide) (by decide) ?_)
  exact layout_serversSegs e.2 hfenced h

theorem layout_groupsSegs {es : List (String × List MetadataChunkserver)}
    (hes : ∀ e ∈ es, IsGroup e) : Layout portWeight (groupsSegs es) := by
  induction es with
  | nil => exact .last
  | cons e es ih =>
    obtain ⟨he, hes⟩ := List.forall_mem_cons.mp hes
    have hgroup := layout_groupSegs he (fenced_groupsSegs es) (ih hes)
    obtain ⟨d, cs, hd, hdigit⟩ := he.digit
    rw [groupSegs, hd] at hgroup
    rw [groupsSegs, groupSegs, hd]
    exact .group hdigit hgroup

theorem layout_tableSegs {e : String × List MetadataChunkserver}
    {es : List (String × List MetadataChunkserver)} (he : IsGroup e) (hes : ∀ e ∈ es, IsGroup e) :
    Layout portWeight (tableSegs e es) :=
  .text (by decide) (by decide) (by decide)
    (layout_groupSegs he (fenced_groupsSegs es) (layout_groupsSegs hes))

end Layout

section Weight
variable (segs : List Seg)

theorem segsWeight_number (n : Int) :
    segsWeight portWeight (valueSeg (numberJson n) :: segs) = segsWeight portWeight segs := by
  have hcount : (toString n).toList.count '{' = 0 :=
    List.count_eq_zero.mpr (not_mem_toString rfl (by decide) n)
  rw [numberJson, valueSeg, segsWeight, Json.encode, hcount, Nat.zero_add]
  · exact fun _ h => Json.noConfusion h

theorem segsWeight_string (s : List Char) :
    segsWeight portWeight (valueSeg (.string s) :: segs) = segsWeight portWeight segs := rfl

theorem segsWeight_memberSegs (m : List Char × Json) :
    segsWeight portWeight (memberSegs m segs) =
      portWeight m.1 + segsWeight portWeight (valueSeg m.2 :: segs) := Nat.zero_add _

theorem segsWeight_counters (c : MetadataChunkserver) :
    segsWeight portWeight ((marshalCounters c).foldr memberSegs segs) =
      segsWeight portWeight segs := by
  have hnames : ∀ name ∈ counterNames, portWeight name.toList = 0 := by decide
  refine foldr_counters (P := fun segs' => segsWeight portWeight segs' =
    segsWeight portWeight segs) (fun name hname n segs' h => ?_) rfl
  rw [segsWeight_memberSegs, segsWeight_number, hnames name hname, Nat.zero_add, h]

theorem segsWeight_dataDir (c : MetadataChunkserver) :
    segsWeight portWeight ((dataDirFields c).foldr memberSegs (.text ['}'] :: segs)) =
      segsWeight portWeight segs := by
  have hweight : portWeight "DataDir".toList = 0 := rfl
  unfold dataDirFields
  split
  · exact Nat.zero_add _
  · rw [List.foldr_cons, List.foldr_nil, segsWeight_memberSegs, hweight, Nat.zero_add]
    exact Nat.zero_add _

theorem segsWeight_serverSegs (c : MetadataChunkserver) :
    segsWeight portWeight (serverSegs c segs) = 2 + segsWeight portWeight segs := by
  have hgroup : portWeight "GroupId".toList = 0 := rfl
  have hip : portWeight "Ip".toList = 0 := rfl
  have hport : portWeight "Port".toList = 1 := rfl
  rw [serverSegs, segsWeight, segsWeight, segsWeight_number, segsWeight_memberSegs,
    segsWeight_string, segsWeight_memberSegs, segsWeight_number, segsWeight_counters,
    segsWeight_dataDir, hgroup, hip, hport, List.count_singleton_self]
  omega

theorem segsWeight_nextServers (cs : List MetadataChunkserver) :
    segsWeight portWeight (cs.foldr nextServerSegs segs) =
      2 * cs.length + segsWeight portWeight segs := by
  induction cs with
  | nil => exact (Nat.zero_add _).symm
  | cons c cs ih =>
    rw [List.foldr_cons, nextServerSegs, segsWeight, segsWeight_serverSegs, ih, List.length_cons]
    simp
    omega

theorem segsWeight_serversSegs (servers : List MetadataChunkserver) :
    segsWeight portWeight (serversSegs segs servers) =
      2 * servers.length + segsWeight portWeight segs := by
  cases servers with
  | nil => exact (Nat.zero_add _).symm
  | cons c cs =>
    rw [serversSegs, segsWeight_serverSegs, segsWeight_nextServers, List.length_cons]
    omega

theorem foldChar_of_isDigit {d : Char} (h : d.isDigit = true) : foldChar d = d := by
  have hle : d.toNat ≤ 57 := (Char.isDigit_iff_toNat.mp h).2
  have hne : ∀ {x : Char}, 57 < x.toNat → d ≠ x := by
    intro x hx hdx
    rw [hdx] at hle
    omega
  have hupper : ¬ (d.val ≥ 'A'.val ∧ d.val ≤ 'Z'.val) := by
    intro h
    have hge : 65 ≤ d.toNat := h.1
    omega
  rw [foldChar, if_neg (hne (by decide)), if_neg (hne (by decide))]
  exact dif_neg hupper

/-- A number is not the name of a field. -/
theorem IsGroup.portWeight {e : String × List MetadataChunkserver} (he : IsGroup e) :
    portWeight e.1.toList = 0 := by
  obtain ⟨d, cs, hd, hdigit⟩ := he.digit
  refine if_neg fun hfield => ?_
  unfold fieldOf at hfield
  have hname := List.find?_some hfield
  rw [decide_eq_true_eq, hd, List.map_cons] at hname
  have hfold : foldChar d = 'p' := (List.cons.inj hname).1.symm
  rw [foldChar_of_isDigit hdigit] at hfold
  rw [hfold] at hdigit
  cases hdigit

theorem segsWeight_groupSegs {e : String × List MetadataChunkserver} (he : IsGroup e) :
    segsWeight portWeight (groupSegs e segs) = 2 * e.2.length + segsWeight portWeight segs := by
  simp only [groupSegs, segsWeight, he.portWeight, segsWeight_serversSegs]
  simp

theorem segsWeight_groupsSegs {es : List (String × List MetadataChunkserver)}
    (hes : ∀ e ∈ es, IsGroup e) :
    segsWeight portWeight (groupsSegs es) = 2 * (es.map fun e => e.2.length).sum := by
  induction es with
  | nil => rfl
  | cons e es ih =>
    obtain ⟨he, hes⟩ := List.forall_mem_cons.mp hes
    rw [groupsSegs, segsWeight, segsWeight_groupSegs _ he, ih hes, List.map_cons, List.sum_cons]
    simp
    omega

theorem segsWeight_tableSegs {e : String × List MetadataChunkserver}
    {es : List (String × List MetadataChunkserver)} (he : IsGroup e) (hes : ∀ e ∈ es, IsGroup e) :
    segsWeight portWeight (tableSegs e es) =
      1 + 2 * ((e :: es).map fun e => e.2.length).sum := by
  rw [tableSegs, segsWeight, segsWeight_groupSegs _ he, segsWeight_groupsSegs hes, List.map_cons,
    List.sum_cons]
  simp
  omega

end Weight

section Strings
variable {segs : List Seg} {c : MetadataChunkserver} {x : Seg}

theorem mem_members (ms : List (List Char × Json)) (hx : x ∈ segs) :
    x ∈ ms.foldr memberSegs segs := by
  induction ms with
  | nil => exact hx
  | cons m ms ih => exact List.mem_cons_of_mem _ (.tail _ (.tail _ ih))

theorem mem_serverSegs (hx : x ∈ (dataDirFields c).foldr memberSegs (.text ['}'] :: segs)) :
    x ∈ serverSegs c segs := by
  simp only [serverSegs, memberSegs, List.mem_cons]
  simp only [mem_members (marshalCounters c) hx, or_true]

theorem ip_mem_serverSegs (c : MetadataChunkserver) (segs : List Seg) :
    .str c.ip.toList ∈ serverSegs c segs := by
  simp [serverSegs, memberSegs, valueSeg]

theorem dataDir_mem_serverSegs (h : c.dataDir ≠ "") (segs : List Seg) :
    .str c.dataDir.toList ∈ serverSegs c segs := by
  refine mem_serverSegs ?_
  rw [dataDirFields, if_neg h]
  simp [memberSegs, valueSeg]

theorem mem_nextServers (cs : List MetadataChunkserver) (hx : x ∈ segs) :
    x ∈ cs.foldr nextServerSegs segs := by
  induction cs with
  | nil => exact hx
  | cons c cs ih =>
    exact List.mem_cons_of_mem _ (mem_serverSegs (mem_members _ (List.mem_cons_of_mem _ ih)))

theorem mem_nextServers_of_server (hx : ∀ segs, x ∈ serverSegs c segs)
    {cs : List MetadataChunkserver} (hc : c ∈ cs) : x ∈ cs.foldr nextServerSegs segs := by
  induction cs with
  | nil => cases hc
  | cons d cs ih =>
    rcases List.mem_cons.mp hc with rfl | hc
    · exact List.mem_cons_of_mem _ (hx _)
    · exact mem_nextServers [d] (ih hc)

/-- But for a comma, a group has these segments. -/
theorem mem_serversSegs {servers : List MetadataChunkserver} (hcomma : x ≠ .text [','])
    (hx : x ∈ servers.foldr nextServerSegs segs) : x ∈ serversSegs segs servers := by
  cases servers with
  | nil => exact hx
  | cons c cs => exact (List.mem_cons.mp hx).resolve_left hcomma

section Groups
variable {e : String × List MetadataChunkserver} {es : List (String × List MetadataChunkserver)}

theorem mem_groupSegs (hcomma : x ≠ .text [',']) (hx : x ∈ e.2.foldr nextServerSegs segs) :
    x ∈ groupSegs e segs :=
  .tail _ (.tail _ (mem_serversSegs hcomma hx))

theorem mem_groupsSegs (hcomma : x ≠ .text [',']) (hx : ∀ segs, x ∈ serverSegs c segs)
    (he : e ∈ es) (hc : c ∈ e.2) : x ∈ groupsSegs es := by
  induction es with
  | nil => cases he
  | cons d es ih =>
    rcases List.mem_cons.mp he with rfl | he
    · exact .tail _ (mem_groupSegs hcomma (mem_nextServers_of_server hx hc))
    · exact .tail _ (mem_groupSegs hcomma (mem_nextServers d.2 (ih he)))

/-- The strings of the servers are strings of the table. -/
theorem mem_tableSegs {d : String × List MetadataChunkserver} (hcomma : x ≠ .text [','])
    (hx : ∀ segs, x ∈ serverSegs c segs) (he : e ∈ d :: es) (hc : c ∈ e.2) :
    x ∈ tableSegs d es := by
  rcases List.mem_cons.mp he with rfl | he
  · exact .tail _ (mem_groupSegs hcomma (mem_nextServers_of_server hx hc))
  · exact .tail _ (mem_groupSegs hcomma (mem_nextServers d.2 (mem_groupsSegs hcomma hx he hc)))

end Groups

end Strings

end Speedy.Cluster
