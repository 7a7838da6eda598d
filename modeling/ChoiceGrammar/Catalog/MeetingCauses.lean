/-!
# Causes for missing a meeting

A corpus of what may keep somebody from the daily meeting.
-/

namespace ChoiceGrammar.Catalog

def meetingCauses : String :=
  "\n".intercalate [
    "# Causes for missing the daily meeting.",
    "# One expression per line: <a|b> picks one branch, everything else is literal.",
    "<I'm feeling sick this morning|I'm not feeling great|I woke up with a pretty bad headache>",
    "I <think I have a light flu|am having all the symptoms of a cold>",
    "the network is down<| in the whole area|, I expect someone to check the cables during the meeting>",
    "<network|power> outage here<!|, I am going downtown to fetch some fuel for the generator>",
    "due to <harsh weather conditions|the blizzard>, the <network|power supply> isn't stable enough to let me attend",
    "it's <haircut|shower|laundry> day and <it takes time|the only slot available clashes with the meeting>",
    "I'm waiting for a <parcel|furniture|pizza> delivery",
    "I need to go to the parcel pickup point",
    "I have a <dog grooming|dentist|car inspection> <errand|appointment>",
    "my <wife|husband|neighbour> is stuck in <her|his|their> car and I have to go help",
    "I had a hard time last night",
    "I have to <file for a new ID card|renew my license plates at the county clerk office>",
    "I've lost my keys in the river",
    "someone stole my catalytic converter",
    "my nan slipped on a dung (long story short...)"] ++ "\n"

end ChoiceGrammar.Catalog
