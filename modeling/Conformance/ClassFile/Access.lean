/-!
# Access flags

The sixteen flag bits that a class file keeps for a class and for each of its members.
-/

namespace Conformance.ClassFile

abbrev AccessFlags := UInt16

namespace AccessFlags

def publicBit : AccessFlags := 0x0001
def privateBit : AccessFlags := 0x0002
def staticBit : AccessFlags := 0x0008
def bridgeBit : AccessFlags := 0x0040
def interfaceBit : AccessFlags := 0x0200
def abstractBit : AccessFlags := 0x0400
def syntheticBit : AccessFlags := 0x1000
def annotationBit : AccessFlags := 0x2000
def enumBit : AccessFlags := 0x4000

/-- Whether any bit of a mask is set. -/
def hasAny (flags mask : AccessFlags) : Bool := flags &&& mask != 0

def isPrivate (flags : AccessFlags) : Bool := hasAny flags privateBit
def isStatic (flags : AccessFlags) : Bool := hasAny flags staticBit
def isAbstract (flags : AccessFlags) : Bool := hasAny flags abstractBit
def isInterface (flags : AccessFlags) : Bool := hasAny flags interfaceBit
def isAnnotationType (flags : AccessFlags) : Bool := hasAny flags annotationBit
def isEnum (flags : AccessFlags) : Bool := hasAny flags enumBit

/-- Members that a compiler adds (bridges, lambda bodies, accessors) belong to no interface. -/
def isSynthetic (flags : AccessFlags) : Bool := hasAny flags (syntheticBit ||| bridgeBit)

end AccessFlags

end Conformance.ClassFile
