/-
This file models `in_netlink.c`: `do_link` for the links of the kernel, and below it the search for
queueing disciplines, classes and classifiers.

The objects of the caches of libnl are given by what its accessors return for them, and the
functions of libnl that ask the kernel are parameters. The C type `int` of an interface index is
held by its bits, as it is converted to an `e_id` anyway. The library is one from version 3.2.29
on, so that no counter of `link_attrs` is disabled.
-/

import Bmon.Feed

namespace Bmon

/-! ### Objects of libnl -/

/-- The counters of a traffic-control object, `RTNL_TC_BYTES` and so on. -/
inductive TcStat where
  | bytes
  | packets
  | overlimits
  | drops
  | rateBps
  | ratePps
  | qlen
  | backlog
  | requeues
  deriving DecidableEq, Repr

/-- A queueing discipline, a class or a classifier, as the accessors `rtnl_tc_get_*` and
`rtnl_htb_get_rate` show it. -/
structure RtnlTc where
  ifindex : UInt32
  handle : UInt32
  parent : UInt32
  kind : CString
  mtu : UInt32
  mpu : UInt32
  overhead : UInt32
  htbRate : UInt64
  stat : TcStat → UInt64

/-- The counters of a link, `RTNL_LINK_RX_BYTES` and so on. -/
inductive LinkStat where
  | rxBytes
  | txBytes
  | rxPackets
  | txPackets
  | rxErrors
  | txErrors
  | rxDropped
  | txDropped
  | rxCompressed
  | txCompressed
  | rxNohandler
  | rxFifoErr
  | txFifoErr
  | rxLenErr
  | rxOverErr
  | rxCrcErr
  | rxFrameErr
  | rxMissedErr
  | txAbortErr
  | txCarrierErr
  | txHbeatErr
  | txWinErr
  | collisions
  | multicast
  | ip6Inpkts
  | ip6Outpkts
  | ip6Indiscards
  | ip6Outdiscards
  | ip6Inoctets
  | ip6Outoctets
  | ip6Inbcastpkts
  | ip6Outbcastpkts
  | ip6Inbcastoctets
  | ip6Outbcastoctets
  | ip6Inmcastpkts
  | ip6Outmcastpkts
  | ip6Inmcastoctets
  | ip6Outmcastoctets
  | ip6Innoroutes
  | ip6Outnoroutes
  | ip6Outforwdatagrams
  | ip6Indelivers
  | icmp6Inmsgs
  | icmp6Outmsgs
  | icmp6Inerrors
  | icmp6Outerrors
  | icmp6Csumerrors
  | ip6Inhdrerrors
  | ip6Intoobigerrors
  | ip6Intruncatedpkts
  | ip6Inunknownprotos
  | ip6Inaddrerrors
  | ip6Csumerrors
  | ip6Reasmtimeout
  | ip6Reasmoks
  | ip6Fragoks
  | ip6Reasmfails
  | ip6Fragfails
  | ip6Reasmreqds
  | ip6Fragcreates
  | ip6Noectpkts
  | ip6Ect1pkts
  | ip6Ect0pkts
  | ip6Cepkts
  deriving DecidableEq, Repr

/-- A link, as the accessors `rtnl_link_get_*` show it, with the strings that the functions of
libnl print into a buffer of 64 bytes. -/
structure RtnlLink where
  name : CString
  ifindex : UInt32
  /-- `rtnl_link_get_link`, the index of the master, or zero. -/
  link : UInt32
  flags : UInt32
  mtu : UInt32
  txqlen : UInt32
  flags2str : String
  operstate2str : String
  addr2str : String
  broadcast2str : String
  mode2str : String
  family2str : String
  ifalias : Option String
  qdisc : Option String
  stat : LinkStat → UInt64

/-- `qdisc_cache`, with the one of its objects that `rtnl_qdisc_get_by_parent` returns for an
interface and a parent. -/
structure QdiscCache where
  objects : List RtnlTc
  getByParent : UInt32 → UInt32 → Option RtnlTc
  getByParent_mem : ∀ ifindex parent tc, getByParent ifindex parent = some tc →
    tc ∈ objects ∧ tc.ifindex = ifindex ∧ tc.parent = parent

/-- The global variables of the module and `cfg_show_all`, and what libnl answers in a read. -/
structure Netlink where
  grp : GroupPtr
  cNotc : Bool
  cfgShowAll : Bool
  qdiscCache : Option QdiscCache
  /-- `rtnl_class_alloc_cache`, nothing where it fails. -/
  classAllocCache : UInt32 → Option (List RtnlTc)
  /-- `rtnl_cls_alloc_cache`, for an interface and a parent. -/
  clsAllocCache : UInt32 → UInt32 → Option (List RtnlTc)
  /-- What `rtnl_tc_handle2str` prints for a handle. -/
  handle2str : UInt32 → CString
  /-- What `rtnl_link_i2name` leaves in the buffer for an index. -/
  i2name : UInt32 → CString

/-! ### Setting up and updating an element -/

/-- An entry of `link_attrs` or `tc_attrs`, without counters that are set to `-1`. -/
structure AttrMap (Stat : Type) where
  name : String
  rxid : Option Stat
  txid : Option Stat

/-- `"%#x"`. -/
def hexString (value : UInt32) : String :=
  if value = 0 then "0" else "0x" ++ String.ofList (Nat.toDigits 16 value.toNat)

namespace ReadContext

variable (ctx : ReadContext)

/-- The block of `do_link` and `handle_tc_obj` for a new element, or nothing where `BUG` ends the
program. The major key attribute is the usage attribute. -/
def newElementCalls (major minor : String) (level : UInt32) (infos : List (String × String))
    (r : Element) : Option (List ElementOp) :=
  if r.eFlags.created then
    if (attrDefLookup ctx.attrDefs major).isSome ∧ (attrDefLookup ctx.attrDefs minor).isSome then
      some ([.setKeyAttr ctx.attrDefs major minor, .setUsageAttr ctx.attrDefs major] ++
        infos.map (fun info => .updateInfo info.1 info.2) ++ [.setUp level])
    else
      none
  else
    some []

/-- Some calls on an element, one after the other. -/
def onElement (e : ElementPtr) (calls : List ElementOp) (σ : Store) : Option Store :=
  Runs.run (InputOp.apply ctx.cfg) σ (calls.map (InputOp.onElement e))

/-- A call of `attr_update` with the current time. -/
def attrUpdateCall (name : String) (rx tx : UInt64) (flags : UpdateFlags) : ElementOp :=
  .attrUpdate ctx.attrDefs ctx.historyDefs (ctx.attrid name) rx tx flags ctx.now

/-- `element_notify_update` and `element_lifesign`. -/
def endCalls (fuel : Nat) : List ElementOp := [.notifyUpdate fuel ctx.now, .lifesign]

end ReadContext

/-! ### Traffic control -/

/-- `tc_attrs`, with the counters passed as `txid`. -/
def tcAttrs : List (String × TcStat) :=
  [("tc_bytes", .bytes), ("tc_packets", .packets), ("tc_overlimits", .overlimits),
    ("tc_drop", .drops), ("tc_bps", .rateBps), ("tc_pps", .ratePps), ("tc_qlen", .qlen),
    ("tc_backlog", .backlog), ("tc_requeues", .requeues)]

/-- `TC_H_ROOT`. -/
def tcHRoot : UInt32 := 0xffffffff

/-- `TC_H_INGRESS`. -/
def tcHIngress : UInt32 := 0xfffffff1

/-- `IFNAME_MAX`. -/
def ifnameMax : Nat := 32

/-- `struct rdata`. -/
structure Rdata where
  classCache : List RtnlTc
  parent : ElementPtr
  level : UInt32

/-- The `struct rdata` for what is found below an element: `ndata` in `handle_class` and
`handle_qdisc`. -/
def Rdata.below (rdata : Rdata) (e : ElementPtr) : Rdata :=
  { rdata with parent := e, level := rdata.level + 1 }

/-- The prefixes `handle_tc_obj` is called with. -/
inductive TcPrefix where
  | ofQdisc
  | ofClass
  | ofCls
  deriving DecidableEq, Repr

def TcPrefix.chars : TcPrefix → List Char
  | ofQdisc => ['q', 'd', 'i', 's', 'c']
  | ofClass => ['c', 'l', 'a', 's', 's']
  | ofCls => ['c', 'l', 's']

/-- `"htb"`. -/
def htb : CString := ⟨['h', 't', 'b'], by decide⟩

section Tc

variable (nl : Netlink) (ctx : ReadContext)

/-- The name `handle_tc_obj` prints: `"%s %s (%s)"`, as far as the buffer has room. -/
def tcName (kind : TcPrefix) (tc : RtnlTc) : CString where
  chars := (kind.chars ++ ' ' :: (nl.handle2str tc.handle).chars ++ [' ', '('] ++
    tc.kind.chars ++ [')']).take (ifnameMax - 1)
  noNul member := by
    have inPrefix : nul ∉ kind.chars := by
      cases kind <;> decide
    have parts := List.mem_of_mem_take member
    simp only [List.mem_append, List.mem_cons, List.not_mem_nil, or_false] at parts
    obtain (((isPrefix | isSpace | isHandle) | isMark | isMark) | isKind) | isMark := parts
    · exact inPrefix isPrefix
    · revert isSpace
      decide
    · exact (nl.handle2str tc.handle).noNul isHandle
    · revert isMark
      decide
    · revert isMark
      decide
    · exact tc.kind.noNul isKind
    · revert isMark
      decide

/-- `update_tc_infos`. -/
def tcInfos (tc : RtnlTc) : List (String × String) :=
  [("MTU", toString tc.mtu.toNat), ("MPU", toString tc.mpu.toNat),
    ("Overhead", toString tc.overhead.toNat), ("Id", hexString tc.handle),
    ("Parent", hexString tc.parent)]

/-- `update_tc_attrs`. -/
def tcAttrCalls (tc : RtnlTc) : List ElementOp :=
  tcAttrs.map fun entry => ctx.attrUpdateCall entry.1 0 (tc.stat entry.2) { tx := true }

/-- The element `handle_tc_obj` looks up or creates. -/
def tcLookup (kind : TcPrefix) (rdata : Rdata) (σ : Store) (tc : RtnlTc) :
    Store × Option ElementPtr :=
  elementLookup ctx.cfg σ nl.grp (tcName nl kind tc) tc.handle (some rdata.parent) true

/-- `handle_tc_obj`, with the element it returns. -/
def handleTcObj (fuel : Nat) (kind : TcPrefix) (rdata : Rdata) (σ : Store) (tc : RtnlTc) :
    Option (Store × Option ElementPtr) :=
  let looked := tcLookup nl ctx kind rdata σ tc
  match looked.2 with
  | none => some (looked.1, none)
  | some e =>
    ((looked.1.elements e).bind (ctx.newElementCalls "tc_bytes" "tc_packets" rdata.level
      (tcInfos tc))).bind fun calls =>
        (ctx.onElement e (calls ++ tcAttrCalls ctx tc ++ ctx.endCalls fuel) looked.1).map fun σ =>
          (σ, some e)

/-- `nl_cache_foreach_filter`, and `nl_cache_foreach` for a filter that all objects match. -/
def nlCacheForeachFilter (cache : List RtnlTc) (filter : RtnlTc → Bool)
    (callback : Rdata → Store → RtnlTc → Option Store) (rdata : Rdata) (σ : Store) :
    Option Store :=
  Runs.run (callback rdata) σ (cache.filter filter)

/-- `handle_cls`. -/
def handleCls (fuel : Nat) (rdata : Rdata) (σ : Store) (tc : RtnlTc) : Option Store :=
  (handleTcObj nl ctx fuel .ofCls rdata σ tc).map Prod.fst

/-- `find_cls`. -/
def findCls (fuel : Nat) (ifindex parent : UInt32) (rdata : Rdata) (σ : Store) : Option Store :=
  match nl.clsAllocCache ifindex parent with
  | none => some σ
  | some clsCache => nlCacheForeachFilter clsCache (fun _ => true) (handleCls nl ctx fuel) rdata σ

/-- `find_classes`, with `handle_class`. -/
def findClasses (handleClass : Rdata → Store → RtnlTc → Option Store) (parent : UInt32)
    (rdata : Rdata) (σ : Store) : Option Store :=
  nlCacheForeachFilter rdata.classCache (fun tc => tc.parent = parent) handleClass rdata σ

/-- `find_qdiscs`, with `handle_qdisc`. -/
def findQdiscs (cache : QdiscCache) (handleQdisc : Rdata → Store → RtnlTc → Option Store)
    (ifindex parent : UInt32) (rdata : Rdata) (σ : Store) : Option Store :=
  nlCacheForeachFilter cache.objects (fun tc => tc.parent = parent ∧ tc.ifindex = ifindex)
    handleQdisc rdata σ

mutual

/-- `handle_class`. -/
def handleClass (cache : QdiscCache) : Nat → Rdata → Store → RtnlTc → Option Store
  | 0, _, _, _ => none
  | fuel + 1, rdata, σ, tc =>
    (handleTcObj nl ctx fuel .ofClass rdata σ tc).bind fun handled =>
      match handled.2 with
      | none => some handled.1
      | some e =>
        let ndata := rdata.below e
        let σ := if tc.kind = htb then elementSetTxmax handled.1 e tc.htbRate else handled.1
        (findClasses (handleClass cache fuel) tc.handle ndata σ).bind
          (findQdiscs cache (handleQdisc cache fuel) tc.ifindex tc.handle ndata)

/-- `handle_qdisc`. -/
def handleQdisc (cache : QdiscCache) : Nat → Rdata → Store → RtnlTc → Option Store
  | 0, _, _, _ => none
  | fuel + 1, rdata, σ, tc =>
    (handleTcObj nl ctx fuel .ofQdisc rdata σ tc).bind fun handled =>
      match handled.2 with
      | none => some handled.1
      | some e =>
        let ndata := rdata.below e
        (findCls nl ctx fuel tc.ifindex tc.handle ndata handled.1).bind fun σ =>
          (if tc.parent = tcHRoot then
            (findCls nl ctx fuel tc.ifindex tcHRoot ndata σ).bind
              (findClasses (handleClass cache fuel) tcHRoot ndata)
          else some σ).bind (findClasses (handleClass cache fuel) tc.handle ndata)

end

/-- `handle_tc`, for an element and the index of its interface. -/
def handleTc (cache : QdiscCache) (fuel : Nat) (e : ElementPtr) (ifindex : UInt32) (σ : Store) :
    Option Store :=
  match nl.classAllocCache ifindex with
  | none => some σ
  | some classCache =>
    Runs.run (handleQdisc nl ctx cache fuel ⟨classCache, e, 1⟩) σ
      ([tcHRoot, 0, tcHIngress].filterMap (cache.getByParent ifindex))

end Tc

/-! ### Links -/

/-- `link_attrs`. -/
def linkAttrs : List (AttrMap LinkStat) :=
  [⟨"bytes", some .rxBytes, some .txBytes⟩,
    ⟨"packets", some .rxPackets, some .txPackets⟩,
    ⟨"errors", some .rxErrors, some .txErrors⟩,
    ⟨"drop", some .rxDropped, some .txDropped⟩,
    ⟨"compressed", some .rxCompressed, some .txCompressed⟩,
    ⟨"nohandler", some .rxNohandler, none⟩,
    ⟨"fifoerr", some .rxFifoErr, some .txFifoErr⟩,
    ⟨"lenerr", some .rxLenErr, none⟩,
    ⟨"overerr", some .rxOverErr, none⟩,
    ⟨"crcerr", some .rxCrcErr, none⟩,
    ⟨"frameerr", some .rxFrameErr, none⟩,
    ⟨"misserr", some .rxMissedErr, none⟩,
    ⟨"aborterr", none, some .txAbortErr⟩,
    ⟨"carrerr", none, some .txCarrierErr⟩,
    ⟨"hbeaterr", none, some .txHbeatErr⟩,
    ⟨"winerr", none, some .txWinErr⟩,
    ⟨"coll", none, some .collisions⟩,
    ⟨"mcast", none, some .multicast⟩,
    ⟨"ip6pkts", some .ip6Inpkts, some .ip6Outpkts⟩,
    ⟨"ip6discards", some .ip6Indiscards, some .ip6Outdiscards⟩,
    ⟨"ip6octets", some .ip6Inoctets, some .ip6Outoctets⟩,
    ⟨"ip6bcastp", some .ip6Inbcastpkts, some .ip6Outbcastpkts⟩,
    ⟨"ip6bcast", some .ip6Inbcastoctets, some .ip6Outbcastoctets⟩,
    ⟨"ip6mcastp", some .ip6Inmcastpkts, some .ip6Outmcastpkts⟩,
    ⟨"ip6mcast", some .ip6Inmcastoctets, some .ip6Outmcastoctets⟩,
    ⟨"ip6noroute", some .ip6Innoroutes, some .ip6Outnoroutes⟩,
    ⟨"ip6forward", none, some .ip6Outforwdatagrams⟩,
    ⟨"ip6delivers", some .ip6Indelivers, none⟩,
    ⟨"icmp6", some .icmp6Inmsgs, some .icmp6Outmsgs⟩,
    ⟨"icmp6err", some .icmp6Inerrors, some .icmp6Outerrors⟩,
    ⟨"icmp6csumerr", some .icmp6Csumerrors, none⟩,
    ⟨"ip6inhdrerr", some .ip6Inhdrerrors, none⟩,
    ⟨"ip6toobigerr", some .ip6Intoobigerrors, none⟩,
    ⟨"ip6trunc", some .ip6Intruncatedpkts, none⟩,
    ⟨"ip6unkproto", some .ip6Inunknownprotos, none⟩,
    ⟨"ip6addrerr", some .ip6Inaddrerrors, none⟩,
    ⟨"ip6csumerr", some .ip6Csumerrors, none⟩,
    ⟨"ip6reasmtimeo", some .ip6Reasmtimeout, none⟩,
    ⟨"ip6fragok", some .ip6Reasmoks, some .ip6Fragoks⟩,
    ⟨"ip6fragfail", some .ip6Reasmfails, some .ip6Fragfails⟩,
    ⟨"ip6fragcreate", some .ip6Reasmreqds, some .ip6Fragcreates⟩,
    ⟨"ip6noectpkts", some .ip6Noectpkts, none⟩,
    ⟨"ip6ect1pkts", some .ip6Ect1pkts, none⟩,
    ⟨"ip6ect0pkts", some .ip6Ect0pkts, none⟩,
    ⟨"ip6cepkts", some .ip6Cepkts, none⟩]

/-- `IFF_UP`. -/
def iffUp : UInt32 := 1

section Link

variable (nl : Netlink) (ctx : ReadContext)

/-- `update_link_infos`. -/
def linkInfos (link : RtnlLink) : List (String × String) :=
  [("MTU", toString link.mtu.toNat), ("Flags", link.flags2str), ("Operstate", link.operstate2str),
    ("IfIndex", toString link.ifindex.toNat), ("Address", link.addr2str),
    ("Broadcast", link.broadcast2str), ("Mode", link.mode2str),
    ("TXQlen", toString link.txqlen.toNat), ("Family", link.family2str),
    ("Alias", link.ifalias.getD ""), ("Qdisc", link.qdisc.getD "")] ++
    if link.link = 0 then [] else [("SlaveOfIndex", toString link.link.toNat)]

/-- The loop of `do_link` over `link_attrs`. -/
def linkAttrCalls (link : RtnlLink) : List ElementOp :=
  linkAttrs.map fun m => ctx.attrUpdateCall m.name ((m.rxid.map link.stat).getD 0)
    ((m.txid.map link.stat).getD 0) { rx := m.rxid.isSome, tx := m.txid.isSome }

/-- The element `do_link` finds for the master of a link. -/
def linkParent (σ : Store) (link : RtnlLink) : Option ElementPtr :=
  if link.link = 0 then none
  else (elementLookup ctx.cfg σ nl.grp (nl.i2name link.link) link.link none false).2

/-- The element `do_link` looks up or creates for a link. -/
def linkLookup (σ : Store) (link : RtnlLink) : Store × Option ElementPtr :=
  elementLookup ctx.cfg σ nl.grp link.name link.ifindex (linkParent nl ctx σ link) true

/-- The level `do_link` gives to a new element. -/
def linkLevel (σ : Store) (r : Element) : UInt32 :=
  match r.eParent.bind σ.elements with
  | some parent => parent.eLevel + 1
  | none => r.eLevel

/-- The call of `handle_tc` in `do_link`. -/
def linkTc (fuel : Nat) (e : ElementPtr) (link : RtnlLink) (σ : Store) : Option Store :=
  match nl.qdiscCache with
  | some cache => if nl.cNotc then some σ else handleTc nl ctx cache fuel e link.ifindex σ
  | none => some σ

/-- What `do_link` does with the element it has looked up. -/
def linkUpdate (fuel : Nat) (link : RtnlLink) (e : ElementPtr) (σ : Store) : Option Store :=
  ((σ.elements e).bind fun r => ctx.newElementCalls "bytes" "packets" (linkLevel σ r)
    (linkInfos link) r).bind fun calls =>
      (ctx.onElement e (calls ++ linkAttrCalls ctx link) σ).bind fun σ =>
        (linkTc nl ctx fuel e link σ).bind (ctx.onElement e (ctx.endCalls fuel))

/-- `do_link`, with the element it uses for the link. -/
def doLink (fuel : Nat) (σ : Store) (link : RtnlLink) : Option (Store × Option ElementPtr) :=
  if ¬ nl.cfgShowAll ∧ link.flags &&& iffUp = 0 then some (σ, none)
  else
    let looked := linkLookup nl ctx σ link
    match looked.2 with
    | none => some (looked.1, none)
    | some e => (linkUpdate nl ctx fuel link e looked.1).map fun σ => (σ, some e)

end Link

end Bmon
