import Microcode.Word.Layout

/-!
The encoding families.

A word belongs to the first family whose fixed bits it has; the order matters, because the last
families of the control group and the memory family leave open bits that earlier ones fix.
-/

namespace Microcode

inductive Family where
  | vmov
  | vmad
  | vmad2
  | vnmad32
  | vnmad16
  | vpck
  | sop2
  | sop2m
  | sop3
  | vtst
  | vtstmsk
  | vbw
  | limm
  | phas
  | nop
  | br
  | smp
  | smlsi
  | kill
  | spec
  | vcomp
  | vdp
  | vdual
  | vldst
  deriving DecidableEq, Repr, Inhabited

namespace Family

/-- The families in the order in which they are tried. -/
def all : List Family :=
  [vmov, vmad, vmad2, vnmad32, vnmad16, vpck, sop2, sop2m, sop3, vtst, vtstmsk, vbw, limm, phas,
    nop, br, smp, smlsi, kill, spec, vcomp, vdp, vdual, vldst]

def name : Family → String
  | vmov => "VMOV"
  | vmad => "VMAD"
  | vmad2 => "VMAD2"
  | vnmad32 => "VNMAD32"
  | vnmad16 => "VNMAD16"
  | vpck => "VPCK"
  | sop2 => "SOP2"
  | sop2m => "SOP2M"
  | sop3 => "SOP3"
  | vtst => "VTST"
  | vtstmsk => "VTSTMSK"
  | vbw => "VBW"
  | limm => "LIMM"
  | phas => "PHAS"
  | nop => "NOP"
  | br => "BR"
  | smp => "SMP"
  | smlsi => "SMLSI"
  | kill => "KILL"
  | spec => "SPEC"
  | vcomp => "VCOMP"
  | vdp => "VDP"
  | vdual => "VDUAL"
  | vldst => "VLDST"

def layout : Family → Layout
  | vmov => ⟨"00111pppstrydecbmmaanoooiwwwwkllffgghhhhjjjjjjqqqqqquuuuuuvvvvvv"⟩
  | vmad => ⟨"00011pppsg1oderiiattnwwwwcbfhzkkjjllmmmmmmqqqquuuuvvxyAAAABBBBBB"⟩
  | vmad2 => ⟨"00000dpps-ry-cbawwwineeeemmookttffgghhhhhhzzjjllllllqqqqqquuuuuu"⟩
  | vnmad32 => ⟨"00001pppsrrydcbawwwwneeeemmoiittkkllffffffzzzzzzzggghhhhhhjjjjjj"⟩
  | vnmad16 => ⟨"00010pppsrrydcbawwwwneeeemmoiittkkllffffffzzzzzzzggghhhhhhjjjjjj"⟩
  | vpck => ⟨"01000pppsnuyderc-aaaffftttmmmmbbkkllgggggggoohiijjqqqqqqvwwwwwwx"⟩
  | sop2 => ⟨"10000ppcsnaaderbmooofllggghhhittkkjjqqqqqqquvvwwxyzzzzzzzAAAAAAA"⟩
  | sop2m => ⟨"10010ppcsnooderbmwwwwaaggghhhttkkjj--------qqqqqqqzzzzzzzAAAAAAA"⟩
  | sop3 => ⟨"10001pp---------------------------------------------------------"⟩
  | vtst => ⟨"01001ppps-oydrceavttiizzmhhhnnbbkkffgggggggwlluuuujjjjjjjqqqqqqq"⟩
  | vtstmsk => ⟨"01111ppps-oydtrcevuuiizzm-aa--bbnnkkfffffffwllgggghhhhhhhjjjjjjj"⟩
  | vbw => ⟨"01ooopppsnrydecxmmmmittttthhabkkffggjjjjjjjlllllllqqqqqqquuuuuuu"⟩
  | limm => ⟨"11111snde110yyyyyypppxxxxxbb-tttttttzzzzzzzzzzzzzzzzzzzzz-------"⟩
  | phas => ⟨"11111----100----------------------------------------------------"⟩
  | nop => ⟨"11111----000-----------101--------------------------------------"⟩
  | br => ⟨"11111ppps000e-----wynba00r----------------iloooooooooooooooooooo"⟩
  | smp => ⟨"11100pppsn-ymrceffaaddlltbbggkhhiijjoooooooqqqqqqquuuuuuuvvvvvvv"⟩
  | smlsi => ⟨"11111010--01-n--ttttppppssssdrcieeeeeeeeaaaaaaaabbbbbbbbffffffff"⟩
  | kill => ⟨"11111001--11000000000pp00000011011110000000000000000000000000000"⟩
  | spec => ⟨"11111----scc----------------------------------------------------"⟩
  | vcomp => ⟨"00110pppsddyenr-aaaaobbccmmff-ttkk--ggggggg-------hhhhhhh---wwww"⟩
  | vdp => ⟨"00011pppsc0oderiigaanwwwwbflllttkkhhjjjjjjzzzzmmmqqqyyyxxxuuuuuu"⟩
  | vdual => ⟨"0010cgsskdtpuuuunaaalriiiiwwwwmmffeebbbbbbbooohhjqvvxxyyyzzzzzzz"⟩
  | vldst => ⟨"111oopppsnmycrbakkkkddeetgffihjlqquuvvvvvvvwwwwwwwxxxxxxxzzzzzzz"⟩

/-- The family a word belongs to. -/
def ofWord? (w : Word) : Option Family := all.find? fun f => f.layout.pattern.admits w

def ofName? (name : String) : Option Family := all.find? fun f => f.name = name

end Family
end Microcode
