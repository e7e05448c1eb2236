import Ods.Calendar
import Ods.SortedText
import Ods.LogLines

/-! The clock of `hal_rtc.c`: dates of the C library, and the seconds since the start of 2023 that
they stand for. -/
namespace Ods
open Calendar HexText

/-- `struct tm` without the fields that only the library fills in. -/
structure Tm where
  tmYear : Int
  tmMon : Int
  tmMday : Int
  tmHour : Int
  tmMin : Int
  tmSec : Int

/-- A time zone whose standard offset never changes: what its standard time is ahead of UTC, and what
daylight saving adds to it. -/
structure Zone where
  gmtoff : Int
  dst : Int → Int
  dst_le : ∀ t, |dst t| ≤ 86400

def epoch : Int := 719528 * 86400

def Tm.seconds (tm : Tm) : Int :=
  (monthStart (tm.tmYear + 1900 + tm.tmMon / 12) (tm.tmMon % 12).toNat + (tm.tmMday - 1)) * 86400 +
    tm.tmHour * 3600 + tm.tmMin * 60 + tm.tmSec - epoch

def Tm.ofMoment (m : Moment) : Tm :=
  ⟨m.date.year - 1900,m.date.month,m.date.day + 1,m.hour,m.minute,m.second⟩

def localMoment (zone : Zone) (t : Int) : Moment :=
  .ofNumber (epoch + t + zone.gmtoff + zone.dst t)

def localtime (zone : Zone) (t : Int) : Tm := .ofMoment (localMoment zone t)

/-- `mktime`, where `tm_isdst` is 0: the fields are standard time, whose offset is the same at every
date. -/
def mktime (zone : Zone) (tm : Tm) : Int := tm.seconds - zone.gmtoff

def dateTimeOf (tm : Tm) : HalRtcDateTime :=
  ⟨BitVec.ofInt 16 (tm.tmYear + 1900),BitVec.ofInt 32 (tm.tmMon + 1),BitVec.ofInt 8 tm.tmMday,
    BitVec.ofInt 8 tm.tmHour,BitVec.ofInt 8 tm.tmMin,BitVec.ofInt 8 tm.tmSec⟩

def halRtcInit (zone : Zone) : Int := mktime zone ⟨123,0,1,0,0,0⟩

def halRtcTimeFromBasetime (zone : Zone) (basetime : Int) (timeSec : BitVec 32) : HalRtcDateTime :=
  dateTimeOf (localtime zone (basetime + timeSec.toNat))

def tmOf (dt : HalRtcDateTime) : Tm :=
  ⟨dt.year.toNat - 1900,(dt.month - 1).toInt,dt.day.toNat,dt.hour.toNat,dt.minute.toNat,
    dt.second.toNat⟩

/-- There is no value where the difference does not fit into the returned type. -/
def halRtcSecsSinceBasetime (zone : Zone) (basetime : Int) (dt : HalRtcDateTime) :
    Option (BitVec 32) :=
  let seconds := mktime zone (tmOf dt) - basetime
  if 0 ≤ seconds ∧ seconds < 2 ^ 32 then some (BitVec.ofInt 32 seconds) else none

def portRtcGet (zone : Zone) (t : Int) : HalRtcDateTime := dateTimeOf (localtime zone t)

section Fields
variable {m k : Moment} {dt : HalRtcDateTime}

def Fits (m : Moment) : Prop := 0 ≤ m.date.year ∧ m.date.year < 2 ^ 16

theorem toNat_ofInt_of_lt {w : Nat} {v : Int} (h : 0 ≤ v) (hlt : v < 2 ^ w) :
    ((BitVec.ofInt w v).toNat : Int) = v := by
  rw [BitVec.toNat_ofInt,Int.emod_eq_of_lt h (by exact_mod_cast hlt)]
  exact Int.toNat_of_nonneg h

theorem monthLength_le (b : Bool) (i : Nat) : monthLength b i ≤ 31 := by
  unfold monthLength
  split
  · split <;> decide
  all_goals decide

/-- The fields as the C code keeps them. -/
theorem fields_ofMoment (h : Fits m) :
    ((dateTimeOf (.ofMoment m)).year.toNat : Int) = m.date.year ∧
      (dateTimeOf (.ofMoment m)).month.toNat = m.date.month + 1 ∧
      (dateTimeOf (.ofMoment m)).day.toNat = m.date.day + 1 ∧
      (dateTimeOf (.ofMoment m)).hour.toNat = m.hour ∧
      (dateTimeOf (.ofMoment m)).minute.toNat = m.minute ∧
      (dateTimeOf (.ofMoment m)).second.toNat = m.second := by
  obtain ⟨hyear,hyear'⟩ := h
  have hmonth := m.date.month_lt
  have hday := m.date.day_lt.trans_le (monthLength_le _ _)
  have hhour := m.hour_lt
  have hminute := m.minute_lt
  have hsecond := m.second_lt
  have hsmall : ∀ w v : Nat, v < 2 ^ w → (BitVec.ofInt w (v : Int)).toNat = v := by
    intro w v hv
    exact_mod_cast toNat_ofInt_of_lt (Int.natCast_nonneg v) (by exact_mod_cast hv)
  refine ⟨?_,hsmall 32 (m.date.month + 1) (by omega),hsmall 8 (m.date.day + 1) (by omega),
    hsmall 8 _ (by omega),hsmall 8 _ (by omega),hsmall 8 _ (by omega)⟩
  simp only [dateTimeOf,Tm.ofMoment,Int.sub_add_cancel]
  exact toNat_ofInt_of_lt hyear hyear'

/-- They can be read back. -/
theorem tmOf_dateTimeOf (h : Fits m) : tmOf (dateTimeOf (.ofMoment m)) = .ofMoment m := by
  obtain ⟨hyear,hmonth,hday,hhour,hminute,hsecond⟩ := fields_ofMoment h
  have hlt := m.date.month_lt
  have hmon : ((dateTimeOf (.ofMoment m)).month - 1).toInt = m.date.month := by
    have hone : (1 : BitVec 32).toNat = 1 := rfl
    have hsub : ((dateTimeOf (.ofMoment m)).month - 1).toNat = m.date.month := by
      rw [BitVec.toNat_sub_of_le (by rw [BitVec.le_def,hmonth,hone]; omega),hmonth,hone]
      omega
    rw [BitVec.toInt_eq_toNat_of_lt (by omega),hsub]
  rw [tmOf,hyear,hmon,hday,hhour,hminute,hsecond]
  rfl

theorem seconds_ofMoment : (Tm.ofMoment m).seconds = m.number - epoch := by
  have hlt := m.date.month_lt
  have hdiv : (m.date.month : Int) / 12 = 0 := by omega
  have hmod : ((m.date.month : Int) % 12).toNat = m.date.month := by omega
  simp only [Tm.seconds,Tm.ofMoment,hdiv,hmod,Moment.number,Date.number,Int.sub_add_cancel,
    Int.add_zero]
  omega

theorem dateTimeOf_inj (hm : Fits m) (hk : Fits k)
    (h : dateTimeOf (.ofMoment m) = dateTimeOf (.ofMoment k)) : m = k := by
  have htm := congrArg tmOf h
  rw [tmOf_dateTimeOf hm,tmOf_dateTimeOf hk] at htm
  have hseconds := congrArg Tm.seconds htm
  rw [seconds_ofMoment,seconds_ofMoment] at hseconds
  exact Moment.eq_of_number (by omega)

/-- The year of a second, by its place in the cycles of 400 years. -/
theorem fits_of_number (h : 0 ≤ m.number) (hlt : m.number < 146097 * 86400 * 163) : Fits m := by
  have hhour := m.hour_lt
  have hminute := m.minute_lt
  have hsecond := m.second_lt
  have hday := m.date.cycleDay_lt
  have hnumber := m.date.number_eq
  rw [Moment.number] at h hlt
  rw [Fits]
  omega

end Fields

section Clock
variable {zone : Zone} {t : Int} {n : BitVec 32} {dt : HalRtcDateTime}

theorem mktime_localtime (h : Fits (localMoment zone t)) :
    mktime zone (tmOf (portRtcGet zone t)) = t + zone.dst t := by
  rw [portRtcGet,localtime,tmOf_dateTimeOf h,mktime,seconds_ofMoment,localMoment,
    Moment.number_ofNumber]
  omega

theorem halRtcInit_eq : halRtcInit zone = 738886 * 86400 - epoch - zone.gmtoff := by
  have hstart : Tm.seconds ⟨123,0,1,0,0,0⟩ = 738886 * 86400 - epoch := by decide +kernel
  rw [halRtcInit,mktime,hstart]

theorem number_since : (localMoment zone (halRtcInit zone + n.toNat)).number =
    738886 * 86400 + n.toNat + zone.dst (halRtcInit zone + n.toNat) := by
  have hinit : halRtcInit zone = _ := halRtcInit_eq
  rw [localMoment,Moment.number_ofNumber]
  generalize zone.dst (halRtcInit zone + n.toNat) = d
  rw [hinit]
  omega

theorem fits_since : Fits (localMoment zone (halRtcInit zone + n.toNat)) := by
  have hdst := abs_le.mp (zone.dst_le (halRtcInit zone + n.toNat))
  have hn := n.isLt
  apply fits_of_number
  · rw [number_since]
    omega
  · rw [number_since]
    omega

/-- The seconds of the date of a second: daylight saving time is counted among them. -/
theorem secs_of_time : mktime zone (tmOf (halRtcTimeFromBasetime zone (halRtcInit zone) n)) -
    halRtcInit zone = n.toNat + zone.dst (halRtcInit zone + n.toNat) := by
  have hfits : Fits (localMoment zone (halRtcInit zone + n.toNat)) := fits_since
  have h := mktime_localtime hfits
  rw [portRtcGet] at h
  rw [halRtcTimeFromBasetime,h]
  omega

/-- In a zone of one standard offset, seconds turned into a date and back are the same exactly where
no daylight saving time is in effect: the date does not say whether it is, and `mktime` is told that
it is not. -/
theorem hal_rtc_secs_since_basetime_iff (zone : Zone) (n : BitVec 32) :
    halRtcSecsSinceBasetime zone (halRtcInit zone)
        (halRtcTimeFromBasetime zone (halRtcInit zone) n) = some n ↔
      zone.dst (halRtcInit zone + n.toNat) = 0 := by
  have hn := n.isLt
  have hdst := abs_le.mp (zone.dst_le (halRtcInit zone + n.toNat))
  rw [halRtcSecsSinceBasetime]
  simp only [secs_of_time]
  generalize zone.dst (halRtcInit zone + n.toNat) = d at hdst
  constructor
  · intro h
    split at h
    · rename_i hrange
      have hnat := congrArg (fun v : BitVec 32 => (v.toNat : Int)) (Option.some.inj h)
      simp only [toNat_ofInt_of_lt hrange.1 hrange.2] at hnat
      omega
    · cases h
  · rintro rfl
    rw [Int.add_zero,if_pos (by omega)]
    congr 1
    apply BitVec.eq_of_toNat_eq
    exact_mod_cast toNat_ofInt_of_lt (Int.natCast_nonneg n.toNat) (by exact_mod_cast hn)

structure HalRtcDateTime.Valid (dt : HalRtcDateTime) : Prop where
  month : 1 ≤ dt.month.toNat ∧ dt.month.toNat ≤ 12
  day : 1 ≤ dt.day.toNat ∧
    dt.day.toNat ≤ monthLength (leap dt.year.toNat) (dt.month.toNat - 1)
  hour : dt.hour.toNat < 24
  minute : dt.minute.toNat < 60
  second : dt.second.toNat < 60

theorem HalRtcDateTime.ext_toNat {dt dt' : HalRtcDateTime} (hyear : dt.year.toNat = dt'.year.toNat)
    (hmonth : dt.month.toNat = dt'.month.toNat) (hday : dt.day.toNat = dt'.day.toNat)
    (hhour : dt.hour.toNat = dt'.hour.toNat) (hminute : dt.minute.toNat = dt'.minute.toNat)
    (hsecond : dt.second.toNat = dt'.second.toNat) : dt = dt' := by
  obtain ⟨year,month,day,hour,minute,second⟩ := dt
  obtain ⟨year',month',day',hour',minute',second'⟩ := dt'
  obtain rfl := BitVec.eq_of_toNat_eq hyear
  obtain rfl := BitVec.eq_of_toNat_eq hmonth
  obtain rfl := BitVec.eq_of_toNat_eq hday
  obtain rfl := BitVec.eq_of_toNat_eq hhour
  obtain rfl := BitVec.eq_of_toNat_eq hminute
  obtain rfl := BitVec.eq_of_toNat_eq hsecond
  rfl

/-- Valid fields are those of a moment. -/
theorem HalRtcDateTime.valid_iff :
    dt.Valid ↔ ∃ m, Fits m ∧ dt = dateTimeOf (.ofMoment m) := by
  constructor
  · rintro ⟨hmonth,hday,hhour,hminute,hsecond⟩
    have hyear := dt.year.isLt
    let m : Moment := ⟨⟨dt.year.toNat,dt.month.toNat - 1,dt.day.toNat - 1,by omega,by omega⟩,
      dt.hour.toNat,dt.minute.toNat,dt.second.toNat,hhour,hminute,hsecond⟩
    have hsame : (dt.year.toNat : Int) = m.date.year := rfl
    have hfits : Fits m := by
      rw [Fits,← hsame]
      omega
    obtain ⟨hy,hm,hd,hh,hmin,hs⟩ := fields_ofMoment hfits
    refine ⟨m,hfits,?_⟩
    exact ext_toNat (by omega) (by rw [hm]; exact (Nat.sub_add_cancel hmonth.1).symm)
      (by rw [hd]; exact (Nat.sub_add_cancel hday.1).symm) hh.symm hmin.symm hs.symm
  · rintro ⟨m,hfits,rfl⟩
    obtain ⟨hy,hm,hd,hh,hmin,hs⟩ := fields_ofMoment hfits
    have hlt := m.date.month_lt
    have hday := m.date.day_lt
    exact ⟨by omega,by rw [hm,hd,hy,Nat.add_sub_cancel]; omega,by rw [hh]; exact m.hour_lt,
      by rw [hmin]; exact m.minute_lt,by rw [hs]; exact m.second_lt⟩

/-- The date of the second that the fields stand for. -/
theorem hal_rtc_time_from_basetime_iff (hdt : dt.Valid)
    (hn : halRtcSecsSinceBasetime zone (halRtcInit zone) dt = some n) :
    halRtcTimeFromBasetime zone (halRtcInit zone) n = dt ↔
      zone.dst (halRtcInit zone + n.toNat) = 0 := by
  obtain ⟨m,hfits,rfl⟩ := HalRtcDateTime.valid_iff.mp hdt
  have hinit : halRtcInit zone = _ := halRtcInit_eq
  have hnumber : m.number = 738886 * 86400 + n.toNat := by
    rw [halRtcSecsSinceBasetime] at hn
    simp only [tmOf_dateTimeOf hfits,mktime,seconds_ofMoment] at hn
    split at hn
    · rename_i hrange
      have hnat := congrArg (fun v : BitVec 32 => (v.toNat : Int)) (Option.some.inj hn)
      simp only [toNat_ofInt_of_lt hrange.1 hrange.2] at hnat
      omega
    · cases hn
  have hlocal : (localMoment zone (halRtcInit zone + n.toNat)).number = _ := number_since
  rw [halRtcTimeFromBasetime,localtime]
  constructor
  · intro h
    have hsame := dateTimeOf_inj fits_since hfits h
    rw [hsame] at hlocal
    omega
  · intro h
    rw [h] at hlocal
    rw [Moment.eq_of_number (m := localMoment zone _) (k := m) (by omega)]

def utc : Zone := ⟨0,fun _ => 0,fun _ => by decide⟩

/-- The 29th of February 2024, 12:30:15. -/
theorem hal_rtc_time_from_basetime_leap :
    halRtcTimeFromBasetime utc (halRtcInit utc) 36678615 = ⟨2024,2,29,12,30,15⟩ ↔
      utc.dst (halRtcInit utc + (36678615 : BitVec 32).toNat) = 0 :=
  hal_rtc_time_from_basetime_iff ⟨by decide,by decide,by decide,by decide,by decide⟩
    (by decide +kernel)

end Clock

section Texts
variable {zone : Zone} {t t' : Int} {m k : Moment} {cs ds : List Char}
variable {float : FloatText} {port : Port} {activated : BitVec 32} {mod : UtlDbgModule}
variable {dt dt' : HalRtcDateTime} {fmt fmt' line line' : List Char} {va va' : List VaArg}

def FourDigits (m : Moment) : Prop := 0 ≤ m.date.year ∧ m.date.year < 10000

instance : Decidable (FourDigits m) := inferInstanceAs (Decidable (_ ∧ _))

theorem FourDigits.fits (h : FourDigits m) : Fits m := ⟨h.1,h.2.trans (by decide)⟩

/-- Texts that begin with dates stand in the order of the dates. -/
theorem dateText_append_lt_iff (hm : FourDigits m) (hk : FourDigits k) :
    dateText (dateTimeOf (.ofMoment m)) ++ cs < dateText (dateTimeOf (.ofMoment k)) ++ ds ↔
      m.Before k ∨ m = k ∧ cs < ds := by
  obtain ⟨hy,hmo,hd,hh,hmi,hs⟩ := fields_ofMoment hm.fits
  obtain ⟨hy',hmo',hd',hh',hmi',hs'⟩ := fields_ofMoment hk.fits
  have hself {c : Char} {xs ys : List Char} : c :: xs < c :: ys ↔ xs < ys := List.cons_lt_cons_self
  have htwo {x y : Nat} {xs ys : List Char} (hx : x < 100) (hy : y < 100) :
      padded 10 2 x ++ xs < padded 10 2 y ++ ys ↔ x < y ∨ x = y ∧ xs < ys :=
    padded_append_lt_iff (by decide) (by decide) (by decide) hx hy
  have hmonth := m.date.month_lt
  have hmonth' := k.date.month_lt
  have hday := m.date.day_lt.trans_le (monthLength_le _ _)
  have hday' := k.date.day_lt.trans_le (monthLength_le _ _)
  have hhour := m.hour_lt
  have hhour' := k.hour_lt
  have hminute := m.minute_lt
  have hminute' := k.minute_lt
  have hsecond := m.second_lt
  have hsecond' := k.second_lt
  obtain ⟨hyear,hyear₁⟩ := hm
  obtain ⟨hyear',hyear₁'⟩ := hk
  simp only [dateText,List.append_assoc,List.cons_append,List.nil_append]
  rw [padded_append_lt_iff (by decide) (by decide) (by decide)
    (show (dateTimeOf (.ofMoment m)).year.toNat < 10 ^ 4 by omega)
    (show (dateTimeOf (.ofMoment k)).year.toNat < 10 ^ 4 by omega)]
  rw [hmo,hmo',hd,hd',hh,hh',hmi,hmi',hs,hs']
  rw [hself,htwo (by omega) (by omega),hself,htwo (by omega) (by omega),hself,
    htwo (by omega) (by omega),hself,htwo (by omega) (by omega),hself,htwo (by omega) (by omega),
    hself,Moment.Before,Date.Before,Moment.ext_iff,Date.ext_iff]
  by_cases hrest : cs < ds
  · simp only [hrest,and_true]
    omega
  · simp only [hrest,and_false,or_false]
    omega

theorem header_append_lt_iff : header mod dt ++ cs < header mod dt' ++ ds ↔
    dateText dt ++ cs < dateText dt' ++ ds := by
  simp only [header,List.cons_append,List.append_assoc,List.cons_lt_cons_self]
  rw [append_lt_append_iff rfl]
  simp

/-- The lines of a module stand in the order of the times at which they were made, as texts too. -/
theorem utlDbgPrintfl_lt (hon : utlDbgModuleIsEnabled activated mod)
    (ht : FourDigits (localMoment zone t)) (ht' : FourDigits (localMoment zone t'))
    (hline : utlDbgPrintfl float port activated mod (portRtcGet zone t) fmt va [] = some line)
    (hline' : utlDbgPrintfl float port activated mod (portRtcGet zone t') fmt' va' [] = some line')
    (hlt : t + zone.dst t < t' + zone.dst t') : line < line' := by
  rw [utlDbgPrintfl_eq,if_pos hon,List.nil_append] at hline hline'
  obtain ⟨text,-,rfl⟩ := Option.map_eq_some_iff.mp hline
  obtain ⟨text',-,rfl⟩ := Option.map_eq_some_iff.mp hline'
  rw [header_append_lt_iff]
  refine (dateText_append_lt_iff ht ht').mpr (.inl ?_)
  rw [← Moment.number_lt_iff,localMoment,localMoment,Moment.number_ofNumber,Moment.number_ofNumber]
  omega

theorem utlDbgPrintfl_lt_second :
    header .ods (portRtcGet utc 59) ++ ['b'] < header .ods (portRtcGet utc 60) ++ ['a'] := by
  have hline : utlDbgPrintfl (fun _ _ _ _ _ => []) .linux (utlDbgInit 0) .ods (portRtcGet utc 59)
      ['b',nul] [] [] = some (header .ods (portRtcGet utc 59) ++ ['b']) := utlDbgPrintfl_eq.trans rfl
  have hline' : utlDbgPrintfl (fun _ _ _ _ _ => []) .linux (utlDbgInit 0) .ods (portRtcGet utc 60)
      ['a',nul] [] [] = some (header .ods (portRtcGet utc 60) ++ ['a']) := utlDbgPrintfl_eq.trans rfl
  exact utlDbgPrintfl_lt (by decide) (by decide +kernel) (by decide +kernel) hline hline' (by decide)

end Texts

end Ods
