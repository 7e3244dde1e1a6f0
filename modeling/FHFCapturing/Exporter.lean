import FHFCapturing.Shutdown
import FHFCapturing.Lib.TextFormat

/-!
# The report log

`FileExporter` of `Exporter.cpp`: the text of an interval's report. Numbers go through
`operator<<`: integers in decimal, and the duration, which `difftime` returns as a `double`, with
six significant digits (`printDouble`). The log is a text format (`Log.format`): as long as no
interval lasts `10 ^ 6` seconds, where the output turns to an exponent and loses digits, the
headers and the flows can be read back from the text alone (`readLog_log`).
-/

namespace FHF

open TextFormat

/-! ## `std::ostream` -/

namespace OStream

/-- `n / 10 ^ k` rounded to the nearest integer, ties to even. -/
def roundDecimal (k n : Nat) : Nat :=
  let q := n / 10 ^ k
  let r := n % 10 ^ k
  if 10 ^ k < 2 * r ∨ (2 * r = 10 ^ k ∧ q % 2 = 1) then q + 1 else q

/-- A mantissa of six digits with the decimal exponent of the first, without trailing zeros. -/
def printScientific (m e : Nat) : List Char :=
  let digits := Nat.toDigits 10 m
  let fraction := ((digits.drop 1).reverse.dropWhile (· = '0')).reverse
  let exponent := if e < 10 then '0' :: Nat.toDigits 10 e else Nat.toDigits 10 e
  digits.take 1 ++ (if fraction = [] then [] else '.' :: fraction) ++ "e+".toList ++ exponent

/-- `operator<<(double)` of an integral value: the format `%g` with its six digits. -/
def printMagnitude (n : Nat) : List Char :=
  if n < 10 ^ 6 then Nat.toDigits 10 n
  else
    let dropped := (Nat.toDigits 10 n).length - 6
    let m := roundDecimal dropped n
    if m = 10 ^ 6 then printScientific (10 ^ 5) (dropped + 6)
    else printScientific m (dropped + 5)

/-- A minus sign, and the magnitude. -/
def printDouble : Int → List Char
  | .ofNat n => printMagnitude n
  | .negSucc n => '-' :: printMagnitude (n + 1)

example : printDouble (-12345678) = "-1.23457e+07".toList := by decide +kernel

example : printDouble 9999995 = "1e+07".toList := by decide +kernel

/-- Up to six digits a `double` is printed as an integer is. -/
theorem printDouble_of_lt {x : Int} (h : x.natAbs < 10 ^ 6) : printDouble x = printInt x := by
  cases x with
  | ofNat n => exact if_pos h
  | negSucc n => exact congrArg ('-' :: ·) (if_pos h)

end OStream

open OStream

/-- The difference of two clock readings, as a `double`. -/
def difftime (time1 time0 : Int) : Int :=
  (time1 - time0).sign * (Rounding.roundBits 53 (time1 - time0).natAbs : Int)

/-- Below ten to the sixth seconds no difference is rounded. -/
theorem difftime_of_lt {time1 time0 : Int} (h : (time1 - time0).natAbs < 10 ^ 6) :
    difftime time1 time0 = time1 - time0 := by
  unfold difftime
  rw [Rounding.roundBits_of_lt (by omega)]
  exact Int.sign_mul_natAbs _

/-! ## The exporter -/

namespace FileExporter

/-- An address in dotted notation, most significant byte first. -/
def IPtoChar (UIntIP : UInt32) : List Char :=
  Nat.toDigits 10 (UIntIP >>> (24 : UInt32)).toNat ++ ".".toList ++
    Nat.toDigits 10 (UIntIP >>> (16 : UInt32) &&& 0xff).toNat ++ ".".toList ++
    Nat.toDigits 10 (UIntIP >>> (8 : UInt32) &&& 0xff).toNat ++ ".".toList ++
    Nat.toDigits 10 (UIntIP &&& 0xff).toNat

/-- One line of a report. -/
def printFlow (it : FlowDescriptor) : List Char :=
  " [ ID: < DSTA:".toList ++
  IPtoChar it.fid.dstaddr ++
  ", DSTP:".toList ++ Nat.toDigits 10 it.fid.dstport.toNat ++
  ", PROT:".toList ++ Nat.toDigits 10 it.fid.prot.toNat ++ ", SRCA:".toList ++
  IPtoChar it.fid.srcaddr ++
  ", SRCP:".toList ++ Nat.toDigits 10 it.fid.srcport.toNat ++
  "> --> oct:".toList ++ Nat.toDigits 10 it.dOctets.toNat ++
  " pkt:".toList ++ Nat.toDigits 10 it.dPkts.toNat ++
  " cnt:".toList ++ Nat.toDigits 10 it.cycles.toNat ++ "  ]\n".toList

/-- One report: the header of the interval, a line for each flow, the rule at the end. -/
def exportFlow (fvec : List FlowDescriptor) (intervalDescr : IntervalDescriptor) : List Char :=
  "====================== Report interval n° ".toList ++
    Nat.toDigits 10 intervalDescr.intervalNum.toNat ++
    " ===============================\n".toList ++
  "Interval StartingAt: ".toList ++ printInt intervalDescr.startT ++
    " during: ".toList ++ printDouble (difftime intervalDescr.stopT intervalDescr.startT) ++
    "\n".toList ++
  "Threshold: ".toList ++ Nat.toDigits 10 intervalDescr.threshold ++
    " r_threshold: ".toList ++ Nat.toDigits 10 intervalDescr.r_threshold ++ " \n".toList ++
  "---------------------------------------------------------------------------\n".toList ++
  fvec.flatMap printFlow ++
  "===========================================================================\n".toList

end FileExporter

/-- The exporter and its output file. -/
structure FileExporter where
  isOpen : Bool
  contents : List Char
  deriving DecidableEq, Repr

namespace FileExporter

/-- Opening empties the file; `canOpen` is whether the system allows it. An open file stays as it
is. -/
def openFile (fe : FileExporter) (canOpen : Bool) : Except String FileExporter :=
  if fe.isOpen then .ok fe
  else if canOpen then .ok { isOpen := true, contents := [] }
  else .error "invalid output file"

/-- A stream that is not open takes no output. -/
def write (fe : FileExporter) (text : List Char) : FileExporter :=
  if fe.isOpen then { fe with contents := fe.contents ++ text } else fe

/-- The file keeps what was written. -/
def close (fe : FileExporter) : FileExporter := { fe with isOpen := false }

/-- `go`, the reports in order, and `stop`. -/
def session (fe : FileExporter) (canOpen : Bool)
    (reports : List (IntervalDescriptor × List FlowDescriptor)) : Except String FileExporter := do
  let fe ← fe.openFile canOpen
  return (reports.foldl (fun fe p => fe.write (exportFlow p.2 p.1)) fe).close

/-- The text of the reports. -/
def log (reports : List (IntervalDescriptor × List FlowDescriptor)) : List Char :=
  reports.flatMap fun p => exportFlow p.2 p.1

/-- Into an open file the reports go one behind the other. -/
theorem foldl_write {fe : FileExporter} (hopen : fe.isOpen = true)
    (reports : List (IntervalDescriptor × List FlowDescriptor)) :
    reports.foldl (fun fe p => fe.write (exportFlow p.2 p.1)) fe =
      { fe with contents := fe.contents ++ log reports } := by
  induction reports generalizing fe with
  | nil => simp [log]
  | cons p reports ih =>
    have hwrite : fe.write (exportFlow p.2 p.1) =
        { fe with contents := fe.contents ++ exportFlow p.2 p.1 } := if_pos hopen
    rw [List.foldl_cons, hwrite]
    refine (ih ?_).trans ?_
    · exact hopen
    · simp [log]

/-- The file of a session is the log. -/
theorem session_eq (reports : List (IntervalDescriptor × List FlowDescriptor))
    (contents : List Char) :
    session { isOpen := false, contents } true reports =
      .ok { isOpen := false, contents := log reports } := by
  show Except.ok (close _) = _
  rw [foldl_write rfl]
  rfl

end FileExporter

/-! ## The log as a format -/

namespace Log

/-- A decimal number that fits 32 bits. -/
def uint32 : TextFormat UInt32 :=
  decimal.imap UInt32.toNat UInt32.ofNat fun _ => UInt32.ofNat_toNat

/-- A decimal number that fits 16 bits. -/
def uint16 : TextFormat UInt16 :=
  decimal.imap UInt16.toNat UInt16.ofNat fun _ => UInt16.ofNat_toNat

/-- A decimal number that fits 8 bits. -/
def uint8 : TextFormat UInt8 :=
  decimal.imap UInt8.toNat UInt8.ofNat fun _ => UInt8.ofNat_toNat

theorem decimal_print (n : Nat) : decimal.print n = Nat.toDigits 10 n := rfl

theorem uint32_print (n : UInt32) : uint32.print n = Nat.toDigits 10 n.toNat := rfl

theorem uint16_print (n : UInt16) : uint16.print n = Nat.toDigits 10 n.toNat := rfl

theorem uint8_print (n : UInt8) : uint8.print n = Nat.toDigits 10 n.toNat := rfl

/-- The parts of a dotted address. -/
def parts (ip : UInt32) : Nat × Nat × Nat × Nat :=
  ((ip >>> (24 : UInt32)).toNat, (ip >>> (16 : UInt32) &&& 0xff).toNat,
    (ip >>> (8 : UInt32) &&& 0xff).toNat, (ip &&& 0xff).toNat)

/-- The address from its four bytes. -/
def ofParts (p : Nat × Nat × Nat × Nat) : UInt32 :=
  UInt32.ofNat (p.1 * 2 ^ 24 + p.2.1 * 2 ^ 16 + p.2.2.1 * 2 ^ 8 + p.2.2.2)

theorem ofParts_parts (ip : UInt32) : ofParts (parts ip) = ip := by
  have hlt := ip.toNat_lt
  have hmask : ∀ x : Nat, x &&& 255 = x % 256 := fun x => Nat.and_two_pow_sub_one_eq_mod x 8
  have hmod : ∀ k, (ip >>> k &&& (0xff : UInt32)).toNat = (ip >>> k).toNat % 256 := fun k => by
    rw [UInt32.toNat_and]
    exact hmask _
  unfold ofParts parts
  dsimp only
  rw [hmod, hmod, UInt32.toNat_and, show (0xff : UInt32).toNat = 255 from rfl, hmask]
  simp only [UInt32.toNat_shiftRight, Nat.shiftRight_eq_div_pow]
  rw [show (24 : UInt32).toNat % 32 = 24 from rfl, show (16 : UInt32).toNat % 32 = 16 from rfl,
    show (8 : UInt32).toNat % 32 = 8 from rfl, ← UInt32.toNat_inj, UInt32.toNat_ofNat']
  omega

section Stops

variable {s : List Char} {c : Char} (h : s.head? = some c) (hc : c.isDigit = false)
include h hc

/-- A number ends where something other than a digit follows. -/
theorem decimal_stops (rest : List Char) : decimal.Stops (s ++ rest) := noDigit_append h hc rest

theorem uint32_stops (rest : List Char) : uint32.Stops (s ++ rest) := noDigit_append h hc rest

theorem uint16_stops (rest : List Char) : uint16.Stops (s ++ rest) := noDigit_append h hc rest

theorem uint8_stops (rest : List Char) : uint8.Stops (s ++ rest) := noDigit_append h hc rest

end Stops

/-- Four numbers with dots between them. -/
def address : TextFormat UInt32 :=
  (decimal.followedBy ".".toList (decimal_stops rfl rfl)
    (decimal.followedBy ".".toList (decimal_stops rfl rfl)
    (decimal.followedBy ".".toList (decimal_stops rfl rfl) decimal))).imap
      parts ofParts ofParts_parts

/-- The last number of an address ends where no digit follows. -/
theorem address_stops {s : List Char} {c : Char} (h : s.head? = some c)
    (hc : c.isDigit = false) (rest : List Char) : address.Stops (s ++ rest) :=
  noDigit_append h hc rest

/-- The format of an address writes what `IPtoChar` does. -/
theorem address_print (ip : UInt32) : address.print ip = FileExporter.IPtoChar ip := by
  simp only [address, imap_print, followedBy_print, decimal_print, parts, FileExporter.IPtoChar,
    List.append_assoc]

/-! ### A flow -/

/-- The fields of a flow in the order of its line. -/
def fields (fd : FlowDescriptor) :
    UInt32 × UInt16 × UInt8 × UInt32 × UInt16 × UInt32 × UInt32 × UInt32 :=
  (fd.fid.dstaddr, fd.fid.dstport, fd.fid.prot, fd.fid.srcaddr, fd.fid.srcport, fd.dOctets,
    fd.dPkts, fd.cycles)

/-- The descriptor from the fields, in the order of the line. -/
def ofFields : UInt32 × UInt16 × UInt8 × UInt32 × UInt16 × UInt32 × UInt32 × UInt32 →
    FlowDescriptor
  | (dstaddr, dstport, prot, srcaddr, srcport, dOctets, dPkts, cycles) =>
      { fid := { srcaddr, dstaddr, srcport, dstport, prot }, dPkts, dOctets, cycles }

/-- No field is missing in the line. -/
theorem ofFields_fields (fd : FlowDescriptor) : ofFields (fields fd) = fd := rfl

/-- The line of a flow as a format, so that it can be read back. -/
def flow : TextFormat FlowDescriptor :=
  ((address.followedBy ", DSTP:".toList (address_stops rfl rfl)
    (uint16.followedBy ", PROT:".toList (uint16_stops rfl rfl)
    (uint8.followedBy ", SRCA:".toList (uint8_stops rfl rfl)
    (address.followedBy ", SRCP:".toList (address_stops rfl rfl)
    (uint16.followedBy "> --> oct:".toList (uint16_stops rfl rfl)
    (uint32.followedBy " pkt:".toList (uint32_stops rfl rfl)
    (uint32.followedBy " cnt:".toList (uint32_stops rfl rfl)
    (uint32.before "  ]\n".toList (uint32_stops rfl rfl))))))))).after
      " [ ID: < DSTA:".toList).imap fields ofFields ofFields_fields

/-- The format of a flow writes what `printFlow` does. -/
theorem flow_print (fd : FlowDescriptor) : flow.print fd = FileExporter.printFlow fd := by
  unfold flow FileExporter.printFlow
  rw [imap_print]
  simp only [fields, after_print, followedBy_print, before_print, uint32_print, uint16_print,
    uint8_print, address_print, List.append_assoc]

/-- No line is empty, so that a list of them can be split. -/
theorem flow_print_ne_nil (fd : FlowDescriptor) : flow.print fd ≠ [] :=
  List.append_ne_nil_of_left_ne_nil (List.cons_ne_nil _ _) _

/-! ### A report -/

/-- A duration that is printed with all its digits. -/
abbrev Duration : Type := {x : Int // x.natAbs < 10 ^ 6}

/-- The report of an interval of such a duration. -/
abbrev Report : Type :=
  {p : IntervalDescriptor × List FlowDescriptor // (p.1.stopT - p.1.startT).natAbs < 10 ^ 6}

/-- The fields of a report in the order of its text. -/
def header (p : Report) : UInt32 × Int × Duration × Nat × Nat × List FlowDescriptor :=
  (p.1.1.intervalNum, p.1.1.startT, ⟨p.1.1.stopT - p.1.1.startT, p.2⟩, p.1.1.threshold,
    p.1.1.r_threshold, p.1.2)

/-- The duration of the interval is what was printed. -/
theorem natAbs_add_sub (x : Int) (d : Duration) : (x + d.1 - x).natAbs < 10 ^ 6 := by
  rw [show x + d.1 - x = d.1 by omega]
  exact d.2

/-- The report from the fields of its header and its flows. -/
def ofHeader : UInt32 × Int × Duration × Nat × Nat × List FlowDescriptor → Report
  | (intervalNum, startT, during, threshold, r_threshold, flows) =>
      ⟨({ intervalNum, startT, stopT := startT + during.1, threshold, r_threshold }, flows),
        natAbs_add_sub startT during⟩

/-- No field is missing in the header: the end of the interval is its start and the duration. -/
theorem ofHeader_header (p : Report) : ofHeader (header p) = p := by
  refine Subtype.ext (Prod.ext ?_ rfl)
  show IntervalDescriptor.mk _ _ (p.1.1.startT + (p.1.1.stopT - p.1.1.startT)) _ _ = p.1.1
  rw [show p.1.1.startT + (p.1.1.stopT - p.1.1.startT) = p.1.1.stopT by omega]

/-- A duration that is printed in full. -/
def duration : TextFormat Duration := integer.restrict fun x => x.natAbs < 10 ^ 6

/-- Lines up to the rule at the end. -/
def flows : TextFormat (List FlowDescriptor) := flow.many (fun _ => trivial) flow_print_ne_nil

section Stops

variable {s : List Char} {c : Char} (h : s.head? = some c) (hc : c.isDigit = false)
include h hc

/-- A signed number ends as an unsigned one does. -/
theorem integer_stops (rest : List Char) : integer.Stops (s ++ rest) := noDigit_append h hc rest

theorem duration_stops (rest : List Char) : duration.Stops (s ++ rest) := noDigit_append h hc rest

end Stops

/-- The line above the flows. -/
def rule : List Char :=
  "---------------------------------------------------------------------------\n".toList

/-- The line that closes a report. -/
def footer : List Char :=
  "===========================================================================\n".toList

/-- The last line of a report is not one of a flow. -/
theorem flows_stops (rest : List Char) : flows.Stops (footer ++ rest) := rfl

def report : TextFormat Report :=
  ((uint32.followedBy (" ===============================\n".toList ++
        "Interval StartingAt: ".toList) (uint32_stops rfl rfl)
    (integer.followedBy " during: ".toList (integer_stops rfl rfl)
    (duration.followedBy ("\n".toList ++ "Threshold: ".toList) (duration_stops rfl rfl)
    (decimal.followedBy " r_threshold: ".toList (decimal_stops rfl rfl)
    (decimal.followedBy (" \n".toList ++ rule) (decimal_stops rfl rfl)
    (flows.before footer flows_stops)))))).after
      "====================== Report interval n° ".toList).imap header ofHeader ofHeader_header

/-- The format of a duration writes what the stream does for a `double`. -/
theorem duration_print (d : Duration) : duration.print d = printDouble d.1 :=
  (printDouble_of_lt d.2).symm

/-- The format of a signed number writes what the stream does. -/
theorem integer_print (x : Int) : integer.print x = printInt x := rfl

/-- The format of the lines writes what the loop of `exportFlow` does. -/
theorem flows_print (fds : List FlowDescriptor) :
    flows.print fds = fds.flatMap FileExporter.printFlow := by
  show fds.flatMap flow.print = _
  rw [funext flow_print]

/-- The format of a report writes what `exportFlow` does. -/
theorem report_print (p : Report) : report.print p = FileExporter.exportFlow p.1.2 p.1.1 := by
  unfold report FileExporter.exportFlow
  rw [imap_print, difftime_of_lt p.2]
  simp only [header, after_print, followedBy_print, before_print, uint32_print, integer_print,
    duration_print, decimal_print, flows_print, List.append_assoc]
  rfl

theorem report_print_ne_nil (p : Report) : report.print p ≠ [] :=
  List.append_ne_nil_of_left_ne_nil (List.cons_ne_nil _ _) _

/-! ### The log -/

/-- The file: reports one behind the other. -/
def format : TextFormat (List Report) := report.many (fun _ => trivial) report_print_ne_nil

/-- The reports that a text is the log of. -/
def readLog (text : List Char) : Option (List (IntervalDescriptor × List FlowDescriptor)) :=
  (format.readAll text).map (List.map Subtype.val)

/-- **The log reads back**, if no interval is too long. -/
theorem readLog_log {reports : List (IntervalDescriptor × List FlowDescriptor)}
    (h : ∀ p ∈ reports, (p.1.stopT - p.1.startT).natAbs < 10 ^ 6) :
    readLog (FileExporter.log reports) = some reports := by
  have hval : (reports.attachWith _ h).map Subtype.val = reports :=
    List.attachWith_map_subtype_val h
  have hprint : format.print (reports.attachWith _ h) = FileExporter.log reports := by
    show (reports.attachWith _ h).flatMap report.print = FileExporter.log reports
    rw [funext report_print]
    conv_rhs => rw [← hval, FileExporter.log, List.flatMap_map]
  unfold readLog
  rw [← hprint, format.readAll_print rfl, Option.map_some, hval]

end Log

end FHF
